import Ecl.BackquoteExpansion

/-! The form of a backquote evaluates to what its template denotes. -/
namespace BackquoteCorrectness

open Backquote BackquoteMeaning BackquoteExpansion
open FailingRuns (bind_ok)

def CarGives (x : Object) (a : CarCode × Object) : Prop := ∃ n, backqCar n x = .ok a

def CdrGives (x : Object) (d : CdrCode × Object) : Prop := ∃ n, backqCdr n x = .ok d

def Builds (t : Template) (x : Object) : Prop := ∃ n, ∀ m, n ≤ m → object m t = .ok x

theorem CarGives.later {x : Object} {a : CarCode × Object} (h : CarGives x a) :
    ∃ n, ∀ m, n ≤ m → backqCar m x = .ok a := by
  obtain ⟨n, hn⟩ := h
  exact ⟨n, fun m hm => (backqCar_deeper (by rw [hn]; nofun) hm).trans hn⟩

theorem CdrGives.later {x : Object} {d : CdrCode × Object} (h : CdrGives x d) :
    ∃ n, ∀ m, n ≤ m → backqCdr m x = .ok d := by
  obtain ⟨n, hn⟩ := h
  exact ⟨n, fun m hm => (backqCdr_deeper (by rw [hn]; nofun) hm).trans hn⟩

theorem CarGives.unique {x : Object} {a b : CarCode × Object} (ha : CarGives x a)
    (hb : CarGives x b) : a = b := by
  obtain ⟨n, hn⟩ := ha.later
  obtain ⟨m, hm⟩ := hb.later
  exact Except.ok.inj ((hn _ (Nat.le_max_left n m)).symm.trans (hm _ (Nat.le_max_right n m)))

theorem expands_iff {u form : Object} :
    Expands u form ↔ ∃ a, CarGives u a ∧ finish a.1 a.2 = .ok form := by
  constructor
  · rintro ⟨n, hn⟩
    obtain ⟨a, ha, hf⟩ := bind_ok hn
    exact ⟨a, ⟨n, ha⟩, hf⟩
  · rintro ⟨a, ⟨n, ha⟩, hf⟩
    refine ⟨n, ?_⟩
    rw [backq, ha]
    exact hf

theorem Expands.unique {u f g : Object} (hf : Expands u f) (hg : Expands u g) : f = g := by
  obtain ⟨a, ha, hf⟩ := expands_iff.1 hf
  obtain ⟨b, hb, hg⟩ := expands_iff.1 hg
  cases ha.unique hb
  exact Except.ok.inj (hf.symm.trans hg)

theorem carGives_atom {x : Object} (hx : ∀ a d, x ≠ .cons a d) : CarGives x (.quote, x) :=
  ⟨1, backqCar_atom 0 hx⟩

theorem cdrGives_atom {x : Object} (hx : ∀ a d, x ≠ .cons a d) : CdrGives x (.quote, x) :=
  ⟨1, backqCdr_atom 0 hx⟩

theorem carGives_comma (c : Comma) (u : Object) :
    CarGives (list2 (.symbol c.symbol) u) (commaCode c, u) := by
  cases c <;> exact ⟨1, rfl⟩

theorem cdrGives_unquote (u : Object) : CdrGives (list2 (.symbol .unquote) u) (.eval, u) :=
  ⟨1, rfl⟩

theorem carGives_backquote {u form : Object} {a : CarCode × Object} (hu : Expands u form)
    (ha : CarGives form a) : CarGives (list2 (.symbol .quasiquote) u) a := by
  obtain ⟨b, hb, hf⟩ := expands_iff.1 hu
  obtain ⟨n, hn⟩ := hb.later
  obtain ⟨m, hm⟩ := ha.later
  refine ⟨max n m + 1, ?_⟩
  rw [list2, backqCar, if_pos rfl]
  change (backqCar (max n m) u >>= fun a => finish a.1 a.2 >>= fun x => backqCar (max n m) x)
    = _
  rw [hn _ (Nat.le_max_left n m)]
  change (finish b.1 b.2 >>= fun x => backqCar (max n m) x) = _
  rw [hf]
  exact hm _ (Nat.le_max_right n m)

theorem cdrGives_cons {ax dx : Object} {a : CarCode × Object} {d : CdrCode × Object}
    (hax : ¬ IsComma ax) (ha : CarGives ax a) (hd : CdrGives dx d) :
    CdrGives (.cons ax dx) (merge (.cons ax dx) a.1 a.2 d.1 d.2) := by
  obtain ⟨n, hn⟩ := ha.later
  obtain ⟨m, hm⟩ := hd.later
  have hu : ax ≠ .symbol .unquote := fun h => hax ⟨.unquote, h⟩
  have hs : ¬ (ax = .symbol .unquoteSplice ∨ ax = .symbol .unquoteNsplice) :=
    fun h => h.elim (fun h => hax ⟨.splice, h⟩) fun h => hax ⟨.nsplice, h⟩
  refine ⟨max n m + 1, ?_⟩
  rw [backqCdr, if_neg hu, if_neg hs, hn _ (Nat.le_max_left n m), hm _ (Nat.le_max_right n m)]
  rfl

theorem carGives_cons {ax dx : Object} {d : CdrCode × Object} (hax : ¬ Mark ax)
    (hd : CdrGives (.cons ax dx) d) : CarGives (.cons ax dx) (wrap d.1 d.2) := by
  obtain ⟨n, hn⟩ := hd
  have hq : ax ≠ .symbol .quasiquote := fun h => hax (.inl h)
  have hc (c : Comma) : ax ≠ .symbol c.symbol := fun h => hax (.inr ⟨c, h⟩)
  have hu : ax ≠ .symbol .unquote := hc .unquote
  have hs : ax ≠ .symbol .unquoteSplice := hc .splice
  have hn' : ax ≠ .symbol .unquoteNsplice := hc .nsplice
  refine ⟨n + 1, ?_⟩
  rw [backqCar, if_neg hq, if_neg hu, if_neg hs, if_neg hn', hn]
  rfl

theorem cdrGives_quote {x : Object} {d : CdrCode × Object} (h : CdrGives x d)
    (hd : d.1 = .quote) : d.2 = x := by
  obtain ⟨n, hn⟩ := h
  by_cases hx : ∀ ax dx, x ≠ .cons ax dx
  · cases n with
    | zero => cases hn
    | succ n =>
      rw [backqCdr_atom n hx] at hn
      cases hn
      rfl
  · obtain ⟨ax, dx, rfl⟩ : ∃ ax dx, x = .cons ax dx := by simpa using hx
    obtain ⟨m, -, ⟨-, rfl⟩ | ⟨-, a, e, -, -, rfl⟩⟩ := backqCdr_cases hn
    · cases hd
    · obtain ⟨ha, he⟩ := (merge_quote _ _ _ _ _).1 hd
      rw [ha, he]
      rfl

theorem joined_nil {l v : Object} (h : joined l .nil = some v) : v = l := by
  induction l generalizing v with
  | nil => exact (Option.some.inj h).symm
  | cons a d _ ih =>
    simp only [joined] at h
    obtain ⟨w, hw, rfl⟩ := Option.map_eq_some_iff.1 h
    rw [ih hw]
  | _ => cases h

def placed : CarCode → Object → Object → Option Object
  | .quote, v, w => some (.cons v w)
  | .eval, v, w => some (.cons v w)
  | .append, l, w => joined l w
  | .nconc, l, w => joined l w

/-- Arguments of LIST*, APPEND and NCONC are not empty. -/
def Shaped (d : CdrCode × Object) : Prop :=
  d.1 = .quote ∨ d.1 = .eval ∨ d.1 = .list ∨ ∃ b args, d.2 = .cons b args

theorem shaped_merge (x : Object) (a : CarCode) (ax : Object) (d : CdrCode) (dx : Object) :
    Shaped (merge x a ax d dx) := by
  cases d with
  | quote =>
    cases a with
    | quote => exact .inl rfl
    | eval =>
      cases dx with
      | nil => exact .inr (.inr (.inl rfl))
      | cons y d => cases d <;> exact .inr (.inr (.inr ⟨_, _, rfl⟩))
      | _ => exact .inr (.inr (.inr ⟨_, _, rfl⟩))
    | _ =>
      simp only [merge]
      split_ifs
      · exact .inr (.inl rfl)
      · exact .inr (.inr (.inr ⟨_, _, rfl⟩))
  | _ => cases a <;> exact .inr (.inr (.inr ⟨_, _, rfl⟩))

section Values

variable {ev : Object → Option Object} (hev : Lawful ev)

include hev

theorem value_kwote (x : Object) : ev (kwote x) = some x := by
  obtain h | ⟨h, ⟨i, rfl⟩ | ⟨i, rfl⟩ | ⟨i, rfl⟩⟩ := kwote_cases x
  · rw [h, hev.quote]
  · rw [h, hev.keyword]
  · rw [h, hev.fixnum]
  · rw [h, hev.other]

theorem value_listStar {a b v w : Object} (ha : ev a = some v) (hb : ev b = some w) :
    ev (call .listStar (.cons a (list1 b))) = some (.cons v w) :=
  hev.listStar_cons a b .nil v w ha ((hev.listStar_one b).trans hb)

theorem value_append {a b l w v : Object} (ha : ev a = some l) (hb : ev b = some w)
    (hv : joined l w = some v) : ev (call .append (.cons a (list1 b))) = some v :=
  hev.append_cons a b .nil l w v ha ((hev.append_one b).trans hb) hv

theorem value_nconc {a b l w v : Object} (ha : ev a = some l) (hb : ev b = some w)
    (hv : joined l w = some v) : ev (call .nconc (.cons a (list1 b))) = some v :=
  hev.nconc_cons a b .nil l w v ha ((hev.nconc_one b).trans hb) hv

theorem value_evalQuoted {ax dx v : Object} (ha : ev ax = some v) :
    ev (cdrForm (evalQuoted ax dx).1 (evalQuoted ax dx).2) = some (.cons v dx) := by
  cases dx with
  | nil => exact hev.list_cons ax .nil v .nil ha hev.list_nil
  | cons y d =>
    cases d with
    | nil =>
      exact hev.list_cons _ _ _ _ ha (hev.list_cons _ _ _ _ (value_kwote hev y) hev.list_nil)
    | _ => exact value_listStar hev ha (value_kwote hev _)
  | _ => exact value_listStar hev ha (value_kwote hev _)

theorem value_merge {x va vd v : Object} {a : CarCode × Object} {d : CdrCode × Object}
    (ha : ev (carForm a.1 a.2) = some va) (hd : ev (cdrForm d.1 d.2) = some vd)
    (hshape : Shaped d) (hne : ¬ (a.1 = .quote ∧ d.1 = .quote))
    (hv : placed a.1 va vd = some v) :
    ev (cdrForm (merge x a.1 a.2 d.1 d.2).1 (merge x a.1 a.2 d.1 d.2).2) = some v := by
  obtain ⟨a, ax⟩ := a
  obtain ⟨d, dx⟩ := d
  cases d with
  | quote =>
    obtain rfl : dx = vd := Option.some.inj ((value_kwote hev dx).symm.trans hd)
    cases a with
    | quote => exact absurd ⟨rfl, rfl⟩ hne
    | eval =>
      cases hv
      exact value_evalQuoted hev ha
    | append =>
      simp only [merge]
      split_ifs with hnil
      · subst hnil
        rw [joined_nil hv]
        exact ha
      · exact value_append hev ha hd hv
    | nconc =>
      simp only [merge]
      split_ifs with hnil
      · subst hnil
        rw [joined_nil hv]
        exact ha
      · exact value_nconc hev ha hd hv
  | eval =>
    cases a with
    | quote | eval => cases hv; exact value_listStar hev ha hd
    | append => exact value_append hev ha hd hv
    | nconc => exact value_nconc hev ha hd hv
  | list =>
    cases a with
    | quote | eval => cases hv; exact hev.list_cons _ _ _ _ ha hd
    | append => exact value_append hev ha hd hv
    | nconc => exact value_nconc hev ha hd hv
  | listx =>
    obtain h | h | h | ⟨b, args, rfl⟩ := hshape
    · cases h
    · cases h
    · cases h
    · cases a with
      | quote | eval => cases hv; exact hev.listStar_cons _ _ _ _ _ ha hd
      | append => exact value_append hev ha hd hv
      | nconc => exact value_nconc hev ha hd hv
  | append =>
    obtain h | h | h | ⟨b, args, rfl⟩ := hshape
    · cases h
    · cases h
    · cases h
    · cases a with
      | quote | eval => cases hv; exact value_listStar hev ha hd
      | append => exact hev.append_cons _ _ _ _ _ _ ha hd hv
      | nconc => exact value_nconc hev ha hd hv
  | nconc =>
    obtain h | h | h | ⟨b, args, rfl⟩ := hshape
    · cases h
    · cases h
    · cases h
    · cases a with
      | quote | eval => cases hv; exact value_listStar hev ha hd
      | append => exact value_append hev ha hd hv
      | nconc => exact hev.nconc_cons _ _ _ _ _ _ ha hd hv

end Values

theorem Builds.unique {t : Template} {x y : Object} (hx : Builds t x) (hy : Builds t y) :
    x = y := by
  obtain ⟨n, hn⟩ := hx
  obtain ⟨m, hm⟩ := hy
  exact Except.ok.inj ((hn _ (Nat.le_max_left n m)).symm.trans (hm _ (Nat.le_max_right n m)))

theorem builds_cons {a d : Template} {x y : Object} (ha : Builds a x) (hd : Builds d y) :
    Builds (.cons a d) (.cons x y) := by
  obtain ⟨n, hn⟩ := ha
  obtain ⟨m, hm⟩ := hd
  refine ⟨max n m, fun i hi => ?_⟩
  rw [object, hn i (Nat.le_trans (Nat.le_max_left n m) hi),
    hm i (Nat.le_trans (Nat.le_max_right n m) hi)]
  rfl

theorem builds_cons_inv {a d : Template} {x : Object} (h : Builds (.cons a d) x) :
    ∃ y z, x = .cons y z ∧ Builds a y := by
  obtain ⟨n, hn⟩ := h
  have hparts (m : ℕ) (hm : n ≤ m) : ∃ y z, object m a = .ok y ∧ x = .cons y z := by
    have hx := hn m hm
    rw [object] at hx
    obtain ⟨y, hy, hx⟩ := bind_ok hx
    obtain ⟨z, -, hx⟩ := bind_ok hx
    exact ⟨y, z, hy, (Except.ok.inj hx).symm⟩
  obtain ⟨y, z, -, rfl⟩ := hparts n le_rfl
  refine ⟨y, z, rfl, n, fun m hm => ?_⟩
  obtain ⟨y', z', hy', hx⟩ := hparts m hm
  cases hx
  exact hy'

theorem builds_vector {t : Template} {x y : Object} {a : CarCode × Object} (dim : Option ℕ)
    (ht : Builds t x) (ha : CarGives x a)
    (hy : (if a.1 = .quote then makeBackqVector dim a.2
      else .ok (list2 (.symbol .unquote)
        (call .makeBackqVector (.cons (dimension dim) (list2 a.2 .nil))))) = .ok y) :
    Builds (.vector dim t) y := by
  obtain ⟨n, hn⟩ := ht
  obtain ⟨m, hm⟩ := ha.later
  refine ⟨max n m, fun i hi => ?_⟩
  rw [object, hn i (Nat.le_trans (Nat.le_max_left n m) hi)]
  change sharpLeftParenthesis i dim x = _
  rw [sharpLeftParenthesis, hm i (Nat.le_trans (Nat.le_max_right n m) hi)]
  exact hy

theorem template_cons {a d : Object} (h : ¬ Mark a) :
    template (.cons a d) = .cons (template a) (template d) := by
  have hq : a ≠ .symbol .quasiquote := fun hq => h (.inl hq)
  have hc (c : Comma) : a ≠ .symbol c.symbol := fun hc => h (.inr ⟨c, hc⟩)
  rw [template]
  · exact fun u ha _ => hq ha
  · exact fun u ha _ => hc .unquote ha
  · exact fun u ha _ => hc .splice ha
  · exact fun u ha _ => hc .nsplice ha

theorem builds_template (x : Object) : Builds (template x) x := by
  refine ⟨0, fun m _ => ?_⟩
  fun_induction template x with
  | case5 a d _ _ _ _ iha ihd =>
    rw [object, iha, ihd]
    rfl
  | _ => rfl

theorem read_template {tails : Object → Prop} {p : Position} {k : ℕ} {x : Object}
    (h : Built tails p k x) (hk : k = 0) : Read tails p (template x) := by
  induction h with
  | atom p k x hx hm =>
    cases x with
    | cons a d => exact absurd rfl (hx a d)
    | _ => exact ⟨hx, hm⟩
  | backquote p k u hu ht _ =>
    subst hk
    exact ⟨hu, ht⟩
  | outermost p c u => cases c <;> trivial
  | comma => cases hk
  | cons p k a d hm _ _ iha ihd =>
    rw [template_cons hm]
    exact ⟨iha hk, ihd hk⟩

theorem builds_not_mark {tails : Object → Prop} {p : Position} {t : Template} {x : Object}
    (ht : Read tails p t) (hx : Builds t x) : ¬ Mark x := by
  have hcons (a d : Object) : ¬ Mark (.cons a d) := by
    rintro (h | ⟨c, h⟩) <;> cases h
  obtain ⟨n, hn⟩ := hx
  have hn := hn n le_rfl
  cases t with
  | atom y =>
    cases hn
    exact ht.2
  | comma c form =>
    cases hn
    exact hcons _ _
  | backquote u =>
    cases hn
    exact hcons _ _
  | cons a d =>
    rw [object] at hn
    obtain ⟨y, -, hn⟩ := bind_ok hn
    obtain ⟨z, -, hn⟩ := bind_ok hn
    cases hn
    exact hcons _ _
  | vector dim t =>
    rw [object] at hn
    obtain ⟨y, -, hn⟩ := bind_ok hn
    rw [sharpLeftParenthesis] at hn
    obtain ⟨a, -, hn⟩ := bind_ok hn
    split_ifs at hn
    · obtain ⟨i, -, hn⟩ := bind_ok hn
      obtain ⟨v, -, hn⟩ := bind_ok hn
      cases hn
      rintro (h | ⟨c, h⟩) <;> cases h
    · cases hn
      exact hcons _ _

def Agrees (t : Template) (v w : Object) : Prop := Alike v w ∧ (Listed t → AlikeElements v w)

theorem agrees_joined {a d : Template} {w w' : Object} (h : Agrees d w w') :
    ∀ {l u' : Object}, joined l w' = some u' →
      ∃ u, joined l w = some u ∧ Agrees (.cons a d) u u' := by
  intro l
  induction l with
  | nil =>
    intro u' hu
    cases hu
    exact ⟨w, rfl, h⟩
  | cons x l _ ih =>
    intro u' hu
    obtain ⟨u', hu', rfl⟩ := Option.map_eq_some_iff.1 hu
    obtain ⟨u, hl, hu⟩ := ih hu'
    refine ⟨.cons x u, by rw [joined, hl]; rfl, .cons _ _ _ _ (.refl x) hu.1, fun ht => ?_⟩
    exact .cons _ _ _ _ (.refl x) (hu.2 ht)
  | _ =>
    intro u' hu
    cases hu

inductive Matches : CarCode → Object → Meaning → Prop
  | quote (v w : Object) : Alike v w → Matches .quote v (.one w)
  | eval (v w : Object) : Alike v w → Matches .eval v (.one w)
  | append (l : Object) : Matches .append l (.many l)
  | nconc (l : Object) : Matches .nconc l (.many l)

theorem placed_agrees {c : CarCode} {a d : Template} {m : Meaning} {va vd wd w : Object}
    (ha : Matches c va m) (hd : Agrees d vd wd) (hw : m.before wd = some w) :
    ∃ v, placed c va vd = some v ∧ Agrees (.cons a d) v w := by
  have hcons {v v' : Object} (h : Alike v v') :
      Agrees (.cons a d) (.cons v vd) (.cons v' wd) :=
    ⟨.cons _ _ _ _ h hd.1, fun ht => .cons _ _ _ _ h (hd.2 ht)⟩
  cases ha with
  | quote _ v' h | eval _ v' h =>
    cases hw
    exact ⟨_, rfl, hcons h⟩
  | append => exact agrees_joined hd hw
  | nconc => exact agrees_joined hd hw

theorem length_alike {v w : Object} (h : AlikeElements v w) : length v = length w := by
  induction v generalizing w with
  | cons a d _ ih =>
    cases h with
    | cons _ _ a' d' _ hd => rw [length, length, ih hd]
  | nil => cases h; rfl
  | _ => cases h

theorem fillVector_alike (dim : ℕ) : ∀ {v w last last' u' : Object}, AlikeElements v w →
    Alike last last' → fillVector dim last' w = .ok u' →
      ∃ u, fillVector dim last v = .ok u ∧ AlikeElements u u' := by
  induction dim with
  | zero =>
    intro v w last last' u' h _ hu
    cases h with
    | nil =>
      cases hu
      exact ⟨.nil, rfl, .nil⟩
    | cons => cases hu
  | succ dim ih =>
    intro v w last last' u' h hlast hu
    cases h with
    | nil =>
      obtain ⟨r', hr', hu⟩ := bind_ok hu
      cases hu
      obtain ⟨r, hr, halike⟩ := ih .nil hlast hr'
      exact ⟨.cons last r, by rw [fillVector, hr]; rfl, .cons _ _ _ _ hlast halike⟩
    | cons a d a' d' ha hd =>
      obtain ⟨r', hr', hu⟩ := bind_ok hu
      cases hu
      obtain ⟨r, hr, halike⟩ := ih hd ha hr'
      exact ⟨.cons a r, by rw [fillVector, hr]; rfl, .cons _ _ _ _ ha halike⟩

theorem makeBackqVector_alike {v w u' : Object} (dim : Option ℕ) (h : AlikeElements v w)
    (hu : makeBackqVector dim w = .ok u') :
    ∃ u, makeBackqVector dim v = .ok (.vector u) ∧ Alike (.vector u) u' := by
  obtain ⟨i, hi, hu⟩ := bind_ok hu
  obtain ⟨r', hr', hu⟩ := bind_ok hu
  cases hu
  obtain ⟨r, hr, halike⟩ := fillVector_alike i h (.refl .nil) hr'
  have hi' : dim.elim (length v) .ok = .ok i := by rw [← hi, length_alike h]
  refine ⟨r, ?_, .vector _ _ halike⟩
  rw [makeBackqVector, hi']
  change (fillVector i .nil v >>= fun u => Except.ok (Object.vector u)) = _
  rw [hr]
  rfl

section Main

variable {ev : Object → Option Object}

def ElementGives (ev : Object → Option Object) (t : Template) (m : Meaning) : Prop :=
  ∃ x a v, Builds t x ∧ CarGives x a ∧ ev (carForm a.1 a.2) = some v ∧ Matches a.1 v m ∧
    (a.1 = .quote → ∃ w, m = .one w ∧ Alike x w)

def TailGives (ev : Object → Option Object) (t : Template) (m : Meaning) : Prop :=
  ∃ x d v w, Builds t x ∧ CdrGives x d ∧ Shaped d ∧ ev (cdrForm d.1 d.2) = some v ∧
    m = .one w ∧ Agrees t v w

theorem value_quoted (hev : Lawful ev) {x v : Object} {d : CdrCode × Object} (hd : CdrGives x d)
    (hq : d.1 = .quote) (hv : ev (cdrForm d.1 d.2) = some v) : v = x := by
  have hx := cdrGives_quote hd hq
  rw [hq, hx] at hv
  exact (Option.some.inj ((value_kwote hev x).symm.trans hv)).symm

theorem tail_cons (hev : Lawful ev) {a d : Template} {m : Meaning} {wd w : Object}
    (hread : Read Constant .element a) (ha : ElementGives ev a m)
    (hd : TailGives ev d (.one wd)) (hw : m.before wd = some w) :
    TailGives ev (.cons a d) (.one w) := by
  obtain ⟨x, b, va, hx, hb, hva, hmatch, hquote⟩ := ha
  obtain ⟨y, e, vd, wd', hy, he, hshape, hvd, hwd, hagree⟩ := hd
  cases hwd
  have hmark := builds_not_mark hread hx
  have hgives := cdrGives_cons (fun hc => hmark (.inr hc)) hb he
  by_cases hq : b.1 = .quote ∧ e.1 = .quote
  · obtain ⟨wa, rfl, halike⟩ := hquote hq.1
    obtain rfl := value_quoted hev he hq.2 hvd
    cases hw
    have hmerge : merge (.cons x vd) b.1 b.2 e.1 e.2 = (.quote, .cons x vd) := by
      rw [hq.1, hq.2]
      rfl
    refine ⟨.cons x vd, _, .cons x vd, _, builds_cons hx hy, hgives, shaped_merge _ _ _ _ _, ?_,
      rfl, .cons _ _ _ _ halike hagree.1, fun ht => .cons _ _ _ _ halike (hagree.2 ht)⟩
    rw [hmerge]
    exact value_kwote hev (.cons x vd)
  · obtain ⟨v, hplaced, hv⟩ := placed_agrees (a := a) hmatch hagree hw
    exact ⟨.cons x y, _, v, w, builds_cons hx hy, hgives, shaped_merge _ _ _ _ _,
      value_merge hev hva hvd hshape hq hplaced, rfl, hv⟩

theorem element_of_tail (hev : Lawful ev) {t : Template} {w : Object}
    (ht : TailGives ev t (.one w))
    (hwrap : ∀ x d, Builds t x → CdrGives x d → CarGives x (wrap d.1 d.2)) :
    ElementGives ev t (.one w) := by
  obtain ⟨x, d, v, w', hx, hd, -, hv, hw, hagree⟩ := ht
  cases hw
  refine ⟨x, _, v, hx, hwrap x d hx hd, by rw [wrap_form, hv], ?_, fun hq => ⟨w, rfl, ?_⟩⟩
  · obtain ⟨d, f⟩ := d
    cases d with
    | quote => exact .quote v w hagree.1
    | _ => exact .eval v w hagree.1
  · obtain rfl := value_quoted hev hd ((wrap_quote _ _).1 hq) hv
    exact hagree.1

theorem wrap_listed {t : Template} {x : Object} {d : CdrCode × Object}
    (hread : Read Constant .tail t) (ht : Listed t) (hx : Builds t x) (hd : CdrGives x d) :
    CarGives x (wrap d.1 d.2) := by
  cases t with
  | atom y =>
    obtain rfl : y = .nil := ht
    obtain rfl : Object.nil = x := (show Builds (.atom .nil) .nil from ⟨0, fun _ _ => rfl⟩).unique hx
    obtain ⟨n, hn⟩ := hd
    cases n with
    | zero => cases hn
    | succ n => cases hn; exact carGives_atom nofun
  | cons a d' =>
    obtain ⟨y, z, rfl, hy⟩ := builds_cons_inv hx
    exact carGives_cons (builds_not_mark hread.1 hy) hd
  | _ => exact absurd ht nofun

theorem vector_gives (hev : Lawful ev) {dim : Option ℕ} {t : Template} {l w : Object}
    (hread : Read Constant .tail t) (ht : Listed t) (h : TailGives ev t (.one l))
    (hw : makeBackqVector dim l = .ok w) :
    ElementGives ev (.vector dim t) (.one w) ∧ TailGives ev (.vector dim t) (.one w) := by
  obtain ⟨x, d, v, l', hx, hd, -, hv, hl, hagree⟩ := h
  cases hl
  obtain ⟨u, hu, halike⟩ := makeBackqVector_alike dim (hagree.2 ht) hw
  have hcar := wrap_listed hread ht hx hd
  by_cases hq : d.1 = .quote
  · obtain rfl := value_quoted hev hd hq hv
    have hwrap : wrap d.1 d.2 = (.quote, v) := by
      rw [hq, cdrGives_quote hd hq]
      rfl
    rw [hwrap] at hcar
    have hy := builds_vector dim hx hcar (y := .vector u) (by rw [if_pos rfl]; exact hu)
    exact ⟨⟨.vector u, _, .vector u, hy, carGives_atom nofun, value_kwote hev (.vector u),
        .quote _ _ halike, fun _ => ⟨w, rfl, halike⟩⟩,
      ⟨.vector u, _, .vector u, w, hy, cdrGives_atom nofun, .inl rfl,
        value_kwote hev (.vector u), rfl, halike, nofun⟩⟩
  · have hcode : (wrap d.1 d.2).1 ≠ .quote := fun h => hq ((wrap_quote _ _).1 h)
    have hform : ev (wrap d.1 d.2).2 = some v := by
      rw [← hv, ← wrap_form]
      obtain ⟨d, f⟩ := d
      cases d with
      | quote => exact absurd rfl hq
      | _ => rfl
    have hy := builds_vector dim hx hcar (by rw [if_neg hcode])
    have hval := hev.makeBackqVector dim _ _ _ hform hu
    exact ⟨⟨_, _, .vector u, hy, carGives_comma .unquote _, hval, .eval _ _ halike, nofun⟩,
      ⟨_, _, .vector u, w, hy, cdrGives_unquote _, .inr (.inl rfl), hval, rfl, halike, nofun⟩⟩

theorem expands_built {u form : Object} (hu : Built Constant .element 1 u)
    (h : Expands u form) : Built Constant .element 0 form ∧ level form = level u - 1 := by
  obtain ⟨a, ⟨n, ha⟩, hf⟩ := expands_iff.1 h
  obtain ⟨hl, hb⟩ := ((expander_keeps n).2 1 u a ha hu).2 0 rfl
  rw [← finish_form hf] at hl hb
  exact ⟨hb, hl⟩

theorem expands_constant {u form : Object} (hu : Built Constant .element 1 u)
    (hl : level u = 0) (h : Expands u form) : ∃ y, CarGives u (.quote, y) ∧ form = kwote y := by
  obtain ⟨⟨c, y⟩, ⟨n, ha⟩, hf⟩ := expands_iff.1 h
  have hc := ((expander_keeps n).2 1 u _ ha hu).1.2 hl
  simp only at hc
  subst hc
  exact ⟨y, ⟨n, ha⟩, (Except.ok.inj hf).symm⟩

theorem built_kwote_tail {y : Object} {k : ℕ} (h : Built Constant .element k (kwote y)) :
    Built Constant .tail k (kwote y) := by
  obtain hy | ⟨hy, hy'⟩ := kwote_cases y
  · rw [hy] at h ⊢
    obtain ⟨hq, -⟩ | ⟨c, u, hc, -⟩ | ⟨hm, ha, hd⟩ := h.cons_cases
    · cases hq
    · cases c <;> cases hc
    · exact .cons _ _ _ _ hm ha hd
  · have hm := h.not_mark
    rw [hy] at hm ⊢
    refine .atom _ _ _ ?_ hm
    rintro a d rfl
    rcases hy' with ⟨i, h⟩ | ⟨i, h⟩ | ⟨i, h⟩ <;> cases h

theorem tail_backquote (hev : Lawful ev) {u form : Object} {m : Meaning}
    (hread : Read Constant .tail (.backquote u)) (hu : Expands u form)
    (ih : Read Constant .tail (template form) → TailGives ev (template form) m) :
    TailGives ev (.backquote u) m := by
  obtain ⟨hb, hconst⟩ := hread
  have hl : level u = 0 := hconst rfl
  obtain ⟨hbf, hlf⟩ := expands_built hb hu
  obtain ⟨y, hy, rfl⟩ := expands_constant hb hl hu
  have hbt := built_kwote_tail hbf
  obtain ⟨x, d, v, w, hx, hd, -, hv, rfl, hagree⟩ := ih (read_template hbt rfl)
  obtain rfl := hx.unique (builds_template _)
  obtain ⟨n, hn⟩ := hd
  have hq : d.1 = .quote := ((expander_keeps n).1 0 _ _ hn hbt).1.2 (by omega)
  obtain rfl := value_quoted hev ⟨n, hn⟩ hq hv
  have hnil : CdrGives .nil (.quote, .nil) := cdrGives_atom nofun
  have hsymbol : CarGives (.symbol .quasiquote) (.quote, .symbol .quasiquote) :=
    carGives_atom nofun
  have hone : CdrGives (list1 u) (.quote, list1 u) :=
    cdrGives_cons (fun hc => hb.not_mark (.inr hc)) hy hnil
  have hgives : CdrGives (list2 (.symbol .quasiquote) u)
      (.quote, list2 (.symbol .quasiquote) u) :=
    cdrGives_cons (by decide) hsymbol hone
  exact ⟨_, _, _, w, ⟨0, fun _ _ => rfl⟩, hgives, .inl rfl,
    value_kwote hev (list2 (.symbol .quasiquote) u), rfl, .backquote _ _ _ hu hagree.1, nofun⟩

theorem element_backquote {u form : Object} {m : Meaning}
    (hread : Read Constant .element (.backquote u)) (hu : Expands u form)
    (ih : Read Constant .element (template form) → ElementGives ev (template form) m) :
    ElementGives ev (.backquote u) m := by
  obtain ⟨hbf, -⟩ := expands_built hread.1 hu
  obtain ⟨x, a, v, hx, ha, hv, hmatch, hquote⟩ := ih (read_template hbf rfl)
  obtain rfl := hx.unique (builds_template _)
  refine ⟨_, a, v, ⟨0, fun _ _ => rfl⟩, carGives_backquote hu ha, hv, hmatch, fun hq => ?_⟩
  obtain ⟨w, hw, halike⟩ := hquote hq
  exact ⟨w, hw, .backquote _ _ _ hu halike⟩

theorem denotes_gives (hev : Lawful ev) {p : Position} {t : Template} {m : Meaning}
    (h : Denotes ev p t m) : (Read Constant .element t → p = .element → ElementGives ev t m) ∧
      (Read Constant .tail t → p = .tail → TailGives ev t m) := by
  induction h with
  | atom p x =>
    refine ⟨fun hr _ => ?_, fun hr _ => ?_⟩
    · exact ⟨x, _, x, ⟨0, fun _ _ => rfl⟩, carGives_atom hr.1, value_kwote hev x,
        .quote _ _ (.refl x), fun _ => ⟨x, rfl, .refl x⟩⟩
    · refine ⟨x, _, x, x, ⟨0, fun _ _ => rfl⟩, cdrGives_atom hr.1, .inl rfl, value_kwote hev x,
        rfl, .refl x, fun hx => ?_⟩
      obtain rfl : x = .nil := hx
      exact .nil
  | unquote p form v hv =>
    refine ⟨fun _ _ => ?_, fun _ _ => ?_⟩
    · exact ⟨_, _, v, ⟨0, fun _ _ => rfl⟩, carGives_comma .unquote form, hv,
        .eval _ _ (.refl v), nofun⟩
    · exact ⟨_, _, v, v, ⟨0, fun _ _ => rfl⟩, cdrGives_unquote form, .inr (.inl rfl), hv, rfl,
        .refl v, nofun⟩
  | splice form l hl =>
    refine ⟨fun _ _ => ?_, nofun⟩
    exact ⟨_, _, l, ⟨0, fun _ _ => rfl⟩, carGives_comma .splice form, hl, .append l, nofun⟩
  | nsplice form l hl =>
    refine ⟨fun _ _ => ?_, nofun⟩
    exact ⟨_, _, l, ⟨0, fun _ _ => rfl⟩, carGives_comma .nsplice form, hl, .nconc l, nofun⟩
  | backquote p u form m hu _ ih =>
    refine ⟨fun hr hp => ?_, fun hr hp => ?_⟩
    · exact element_backquote hr hu fun hr' => ih.1 hr' hp
    · exact tail_backquote hev hr hu fun hr' => ih.2 hr' hp
  | cons p a d m wd w _ _ hw iha ihd =>
    have htail (hr : Read Constant .tail (.cons a d)) : TailGives ev (.cons a d) (.one w) :=
      tail_cons hev hr.1 (iha.1 hr.1 rfl) (ihd.2 hr.2 rfl) hw
    refine ⟨fun hr _ => element_of_tail hev (htail hr) fun x e hx he => ?_, fun hr _ => htail hr⟩
    obtain ⟨y, z, rfl, hy⟩ := builds_cons_inv hx
    exact carGives_cons (builds_not_mark hr.1 hy) he
  | vector p dim t l w _ hw ih =>
    refine ⟨fun hr _ => ?_, fun hr _ => ?_⟩
    · exact (vector_gives hev hr.1 hr.2 (ih.2 hr.1 rfl) hw).1
    · exact (vector_gives hev hr.1 hr.2 (ih.2 hr.1 rfl) hw).2

theorem alike_eq (v : Object) (hv : backquotes v = 0) :
    (∀ w, Alike v w → v = w) ∧ (∀ w, AlikeElements v w → v = w) := by
  induction v with
  | cons a d iha ihd =>
    simp only [backquotes, Nat.add_eq_zero_iff] at hv
    refine ⟨fun w h => ?_, fun w h => ?_⟩
    · cases h with
      | refl => rfl
      | cons _ _ _ _ ha hd => rw [(iha hv.1).1 _ ha, (ihd hv.2).1 _ hd]
      | backquote => exact absurd hv.1 (by decide)
    · cases h with
      | cons _ _ _ _ ha hd => rw [(iha hv.1).1 _ ha, (ihd hv.2).2 _ hd]
  | vector v ih =>
    refine ⟨fun w h => ?_, fun w h => by cases h⟩
    cases h with
    | refl => rfl
    | vector _ _ h => rw [(ih hv).2 _ h]
  | _ =>
    refine ⟨fun w h => ?_, fun w h => ?_⟩
    · cases h
      rfl
    · cases h <;> rfl

end Main

def seven : ℕ → Option Object
  | 2 => some (.fixnum 7)
  | 3 => some (list1 (.fixnum 1))
  | _ => none

/-- The contents of the inner backquote of (,@x `(b ,,c)). -/
def nestedContents : Object :=
  .cons (.symbol (.named 1))
    (list1 (list2 (.symbol .unquote) (list2 (.symbol .unquote) (.symbol (.named 2)))))

def nestedTemplate : Template :=
  .cons (.comma .splice (.symbol (.named 3))) (.cons (.backquote nestedContents) (.atom .nil))

/-- LIST of the constant b and of what stands for c. -/
def listOfB (c : Object) : Object :=
  call .list (.cons (list2 (.symbol .quote) (.symbol (.named 1))) (list1 c))

theorem nested_read : Read Constant .element nestedTemplate := by
  have hinner : Built Constant .element 0 (list2 (.symbol .unquote) (.symbol (.named 2))) :=
    .outermost _ .unquote _
  have houter := Built.comma .element 0 .unquote _ hinner
  refine ⟨trivial, ⟨?_, nofun⟩, nofun, by decide⟩
  exact .cons _ _ _ _ (by decide) (.atom _ _ _ nofun (by decide)) houter.list1

/-- LIST, the constant b and a last argument, as a template. -/
theorem listOfB_denotes {ev : Object → Option Object} {p : Position} {c v : Object}
    (h : Denotes ev .element (template c) (.one v)) (hc : ¬ Mark c) :
    Denotes ev p (template (listOfB c)) (.one (listOfB v)) := by
  have hb : template (list2 (.symbol .quote) (.symbol (.named 1))) =
      .cons (.atom (.symbol .quote)) (.cons (.atom (.symbol (.named 1))) (.atom .nil)) := rfl
  have hquote : Denotes ev .element (.cons (.atom (.symbol .quote))
      (.cons (.atom (.symbol (.named 1))) (.atom .nil)))
      (.one (list2 (.symbol .quote) (.symbol (.named 1)))) :=
    .cons _ _ _ _ _ _ (.atom _ _) (.cons _ _ _ _ _ _ (.atom _ _) (.atom _ _) rfl) rfl
  have hlast : Denotes ev .tail (.cons (template c) (.atom .nil)) (.one (list1 v)) :=
    .cons _ _ _ _ _ _ h (.atom _ _) rfl
  rw [listOfB, call, template_cons (by decide), template_cons (by decide), list1,
    template_cons hc, hb]
  exact .cons _ _ _ _ _ _ (.atom _ _) (.cons _ _ _ _ _ _ hquote hlast rfl) rfl

theorem nested_denotes : Denotes (value seven) .element nestedTemplate
    (.one (list2 (.fixnum 1) (listOfB (.fixnum 7)))) := by
  have hc : Denotes (value seven) .element
      (template (list2 (.symbol .unquote) (.symbol (.named 2)))) (.one (.fixnum 7)) :=
    .unquote _ _ _ rfl
  have hinner : Denotes (value seven) .element (.backquote nestedContents)
      (.one (listOfB (.fixnum 7))) :=
    .backquote _ _ (listOfB (list2 (.symbol .unquote) (.symbol (.named 2)))) _ ⟨10, rfl⟩
      (listOfB_denotes hc (by decide))
  have htail := Denotes.cons .tail _ _ _ _ _ hinner (.atom .tail .nil) rfl
  exact .cons _ _ _ _ _ _ (.splice _ _ rfl) htail rfl

/-- The contents of the inner backquote of (a . `(b ,c)). -/
def innerContents : Object :=
  .cons (.symbol (.named 1)) (list1 (list2 (.symbol .unquote) (.symbol (.named 2))))

def dottedTemplate : Template := .cons (.atom (.symbol (.named 0))) (.backquote innerContents)

theorem dotted_denotes (ev : Object → Option Object) : Denotes ev .element dottedTemplate
    (.one (.cons (.symbol (.named 0)) (listOfB (.symbol (.named 2))))) := by
  have hform : Denotes ev .tail (template (listOfB (.symbol (.named 2))))
      (.one (listOfB (.symbol (.named 2)))) := listOfB_denotes (.atom _ _) (by decide)
  exact .cons _ _ _ _ _ _ (.atom _ _) (.backquote _ _ _ _ ⟨10, rfl⟩ hform) rfl

end BackquoteCorrectness
