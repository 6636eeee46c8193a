import Ecl.WildcardMatching

/-! Lists of components against masks, and which masks the code takes as they are meant. -/
namespace WildcardMatching

open Pathnames

def Supported (x : Component) : Prop :=
  x = .null ∨ x = .wild ∨ x = .wildInferiors ∨ ∃ p, x = .string p

structure Plain (mask : List Component) : Prop where
  escapes : ∀ p, .string p ∈ mask → PlainEscapes p
  supported : ∀ m, .wildInferiors :: m <:+ mask → ∀ x ∈ m, Supported x
  last : ¬ [.wildInferiors, .wildInferiors] <:+ mask

section
variable {f : List Component → Except Component Bool} {a m : List Component} {c x : Component}

theorem anyTail_error {e : Component} (h : f (c :: a) = .error e) :
    anyTail f (c :: a) = .error e := by
  rw [anyTail, h]
  rfl

theorem anyTail_cons {b : Bool} (h : f (c :: a) = .ok b) :
    anyTail f (c :: a) = if b then .ok true else anyTail f a := by
  rw [anyTail, h]
  cases b <;> rfl

theorem anyTail_true (h : anyTail f a = .ok true) :
    ∃ w t, a = w ++ t ∧ t ≠ [] ∧ f t = .ok true := by
  induction a with
  | nil => cases h
  | cons c a ih =>
    cases hf : f (c :: a) with
    | error e =>
      rw [anyTail_error hf] at h
      cases h
    | ok b =>
      cases b with
      | true => exact ⟨[], c :: a, rfl, List.cons_ne_nil c a, hf⟩
      | false =>
        rw [anyTail_cons hf] at h
        obtain ⟨w, t, rfl, ht, hft⟩ := ih h
        exact ⟨c :: w, t, rfl, ht, hft⟩

theorem anyTail_total {P : List Component → Prop} (h : ∀ t, ∃ b, f t = .ok b ∧ (b = true ↔ P t)) :
    ∃ b, anyTail f a = .ok b ∧ (b = true ↔ ∃ w t, a = w ++ t ∧ t ≠ [] ∧ P t) := by
  induction a with
  | nil =>
    refine ⟨false, rfl, iff_of_false Bool.false_ne_true ?_⟩
    rintro ⟨w, t, h, ht, -⟩
    exact ht (List.append_eq_nil_iff.mp h.symm).2
  | cons c a ih =>
    obtain ⟨b, hb, hP⟩ := h (c :: a)
    rw [anyTail_cons hb]
    cases b with
    | true => exact ⟨true, rfl, iff_of_true rfl ⟨[], c :: a, rfl, List.cons_ne_nil c a, hP.mp rfl⟩⟩
    | false =>
      obtain ⟨b, hb', hiff⟩ := ih
      refine ⟨b, hb', hiff.trans ⟨?_, ?_⟩⟩
      · rintro ⟨w, t, rfl, ht, hPt⟩
        exact ⟨c :: w, t, rfl, ht, hPt⟩
      · rintro ⟨w, t, hs, ht, hPt⟩
        rcases List.cons_eq_append_iff.mp hs with ⟨-, rfl⟩ | ⟨w, -, rfl⟩
        · exact absurd (hP.mpr hPt) Bool.false_ne_true
        · exact ⟨w, t, rfl, ht, hPt⟩

theorem pathListMatch_inferiors (hm : m ≠ []) :
    pathListMatch a (.wildInferiors :: m) = anyTail (fun t => pathListMatch t m) a := by
  rw [pathListMatch.eq_def]
  simp only [if_true, if_neg hm]

theorem pathListMatch_item (hx : x ≠ .wildInferiors) : pathListMatch (c :: a) (x :: m) =
    pathItemMatch c x >>= fun b => if b then pathListMatch a m else .ok false := by
  rw [pathListMatch.eq_def]
  simp only [if_neg hx]

theorem pathListMatch_item_true (hx : x ≠ .wildInferiors) :
    pathListMatch (c :: a) (x :: m) = .ok true ↔
      pathItemMatch c x = .ok true ∧ pathListMatch a m = .ok true := by
  rw [pathListMatch_item hx]
  cases hb : pathItemMatch c x with
  | error e => exact iff_of_false (fun h => by cases h) fun h => by cases h.1
  | ok b =>
    cases b with
    | true => exact (and_iff_right rfl).symm
    | false => exact iff_of_false (fun h => by cases h) fun h => by cases h.1

theorem pathListMatch_missing (hx : x ≠ .wildInferiors) : pathListMatch [] (x :: m) =
    if x = .absolute ∨ x = .relative then pathListMatch [] m else .ok false := by
  rw [pathListMatch.eq_def]
  simp only [if_neg hx]
  by_cases hmissing : x = .absolute ∨ x = .relative
  · rw [if_neg (by tauto), if_pos hmissing]
  · rw [if_pos (by tauto), if_neg hmissing]

theorem matches_nil : Matches [] a ↔ a = [] := by
  constructor
  · intro h
    cases h
    rfl
  · rintro rfl
    exact .nil

theorem matches_inferiors :
    Matches (.wildInferiors :: m) a ↔ ∃ w t, a = w ++ t ∧ Matches m t := by
  constructor
  · intro h
    cases h with
    | inferiors w h => exact ⟨w, _, rfl, h⟩
    | item hx => exact absurd rfl hx
    | missing hx => rcases hx with hx | hx <;> cases hx
  · rintro ⟨w, t, rfl, h⟩
    exact .inferiors w h

theorem matches_item (hx : x ≠ .wildInferiors) :
    Matches (x :: m) (c :: a) ↔ ItemMatches x c ∧ Matches m a := by
  constructor
  · intro h
    generalize hl : c :: a = l at h
    cases h with
    | inferiors w h => exact absurd rfl hx
    | item _ hc h =>
      cases hl
      exact ⟨hc, h⟩
    | missing => cases hl
  · rintro ⟨hc, h⟩
    exact .item hx hc h

theorem matches_missing (hx : x ≠ .wildInferiors) :
    Matches (x :: m) [] ↔ (x = .absolute ∨ x = .relative) ∧ Matches m [] := by
  constructor
  · intro h
    generalize hl : [] = l at h
    cases h with
    | inferiors w h => exact absurd rfl hx
    | item _ hc h => cases hl
    | missing hx h => exact ⟨hx, h⟩
  · rintro ⟨hx, h⟩
    exact .missing hx h

end

section
variable {c x : Component}

theorem pathItemMatch_iff (hx : ∀ p, x = .string p → PlainEscapes p) :
    pathItemMatch c x = .ok true ↔ ItemMatches x c := by
  rw [pathItemMatch.eq_def]
  by_cases hwild : x = .wild
  · rw [if_pos hwild, hwild]
    exact iff_of_true rfl (.wild c)
  rw [if_neg hwild]
  split
  · refine iff_of_false (by simp) fun h => ?_
    cases h
  · next s p =>
    rw [Except.ok.injEq, (string_exact_iff p).mpr (hx p rfl)]
    constructor
    · exact .string
    · intro h
      cases h with
      | string h => exact h
      | same _ h => exact absurd rfl (h _)
  · next s hnull hstring =>
    refine iff_of_false (by simp) fun h => ?_
    cases h with
    | wild => exact hwild rfl
    | string => exact hstring _ rfl
    | same _ h => exact h s rfl
  · next hstring _ _ =>
    rw [Except.ok.injEq, decide_eq_true_iff]
    constructor
    · rintro rfl
      exact .same c hstring
    · intro h
      cases h with
      | wild => exact absurd rfl hwild
      | string h => exact absurd rfl (hstring _)
      | same => rfl

theorem pathItemMatch_total (h : Supported x) (hx : x ≠ .wildInferiors) :
    ∃ b, pathItemMatch c x = .ok b := by
  rcases h with rfl | rfl | rfl | ⟨p, rfl⟩
  · cases c <;> exact ⟨_, rfl⟩
  · cases c <;> exact ⟨true, rfl⟩
  · exact absurd rfl hx
  · cases c <;> exact ⟨_, rfl⟩

theorem pathItemMatch_unsupported {s : LispString} (h : ¬ Supported x) :
    pathItemMatch (.string s) x = .error x := by
  rw [pathItemMatch.eq_def]
  cases x with
  | null => exact absurd (Or.inl rfl) h
  | wild => exact absurd (Or.inr (Or.inl rfl)) h
  | wildInferiors => exact absurd (Or.inr (Or.inr (Or.inl rfl))) h
  | string p => exact absurd (Or.inr (Or.inr (Or.inr ⟨p, rfl⟩))) h
  | absolute | relative | up | back | other => rfl

end

section
variable {a m : List Component}

theorem inferiors_of_matches_nil (hm : ∀ x ∈ m, Supported x) (h : Matches m []) :
    ∀ x ∈ m, x = .wildInferiors := by
  induction m with
  | nil => exact fun x hx => absurd hx List.not_mem_nil
  | cons y m ih =>
    have ih := ih (fun x hx => hm x (List.mem_cons_of_mem y hx))
    by_cases hy : y = .wildInferiors
    · rw [hy] at h
      obtain ⟨w, t, hnil, ht⟩ := matches_inferiors.mp h
      rw [(List.append_eq_nil_iff.mp hnil.symm).2] at ht
      exact List.forall_mem_cons.mpr ⟨hy, ih ht⟩
    · obtain ⟨hmissing, -⟩ := (matches_missing hy).mp h
      obtain h | h | h | ⟨p, h⟩ := hm y List.mem_cons_self <;>
        rcases hmissing with rfl | rfl <;> cases h

theorem ends_in_inferiors (hne : m ≠ []) (h : ∀ x ∈ m, x = .wildInferiors) :
    [.wildInferiors, .wildInferiors] <:+ .wildInferiors :: m := by
  induction m with
  | nil => exact absurd rfl hne
  | cons y m ih =>
    obtain ⟨rfl, hrest⟩ := List.forall_mem_cons.mp h
    rcases eq_or_ne m [] with rfl | hm
    · exact List.suffix_rfl
    · exact (ih hm hrest).trans (List.suffix_cons _ _)

theorem supported_spec (hm : ∀ x ∈ m, Supported x) (hesc : ∀ p, .string p ∈ m → PlainEscapes p)
    (hlast : ¬ [.wildInferiors, .wildInferiors] <:+ m) :
    ∃ b, pathListMatch a m = .ok b ∧ (b = true ↔ Matches m a) := by
  induction m generalizing a with
  | nil => exact ⟨a.isEmpty, by rw [pathListMatch], List.isEmpty_iff.trans matches_nil.symm⟩
  | cons x m ih =>
    have ih := fun a => @ih a (fun y hy => hm y (List.mem_cons_of_mem x hy))
      (fun p hp => hesc p (List.mem_cons_of_mem x hp))
      (fun h => hlast (h.trans (List.suffix_cons x m)))
    by_cases hx : x = .wildInferiors
    · subst hx
      rcases eq_or_ne m [] with rfl | hne
      · refine ⟨true, rfl, iff_of_true rfl ?_⟩
        exact matches_inferiors.mpr ⟨a, [], (List.append_nil a).symm, .nil⟩
      · rw [pathListMatch_inferiors hne, matches_inferiors]
        obtain ⟨b, hb, hiff⟩ := anyTail_total (a := a) ih
        refine ⟨b, hb, hiff.trans ⟨?_, ?_⟩⟩
        · rintro ⟨w, t, ha, -, ht⟩
          exact ⟨w, t, ha, ht⟩
        · rintro ⟨w, t, ha, ht⟩
          refine ⟨w, t, ha, ?_, ht⟩
          rintro rfl
          exact hlast (ends_in_inferiors hne (inferiors_of_matches_nil
            (fun y hy => hm y (List.mem_cons_of_mem _ hy)) ht))
    · have hsup := hm x List.mem_cons_self
      cases a with
      | nil =>
        have hnot : ¬ (x = .absolute ∨ x = .relative) := by
          rintro (rfl | rfl) <;> obtain h | h | h | ⟨p, h⟩ := hsup <;> cases h
        rw [pathListMatch_missing hx, if_neg hnot, matches_missing hx]
        exact ⟨false, rfl, iff_of_false Bool.false_ne_true fun h => hnot h.1⟩
      | cons c a =>
        obtain ⟨b, hb⟩ := pathItemMatch_total (c := c) hsup hx
        have hitem := pathItemMatch_iff (c := c) fun p hp => hesc p (hp ▸ List.mem_cons_self)
        rw [pathListMatch_item hx, hb, matches_item hx]
        rw [hb, Except.ok.injEq] at hitem
        cases b with
        | true =>
          obtain ⟨b, hrest, hiff⟩ := ih a
          exact ⟨b, hrest, by rw [hiff, ← hitem]; exact (and_iff_right rfl).symm⟩
        | false => exact ⟨false, rfl, iff_of_false Bool.false_ne_true fun h =>
            Bool.false_ne_true (hitem.mpr h.1)⟩

theorem Plain.tail {x : Component} (h : Plain (x :: m)) : Plain m where
  escapes p hp := h.escapes p (List.mem_cons_of_mem x hp)
  supported m' hm' := h.supported m' (hm'.trans (List.suffix_cons x m))
  last hm' := h.last (hm'.trans (List.suffix_cons x m))

theorem plain_spec (h : Plain m) : pathListMatch a m = .ok true ↔ Matches m a := by
  induction m generalizing a with
  | nil => rw [pathListMatch, Except.ok.injEq, List.isEmpty_iff, matches_nil]
  | cons x m ih =>
    have ih := fun a => @ih a h.tail
    by_cases hx : x = .wildInferiors
    · subst hx
      have hm : ∀ y ∈ .wildInferiors :: m, Supported y :=
        List.forall_mem_cons.mpr ⟨Or.inr (Or.inr (Or.inl rfl)), h.supported m List.suffix_rfl⟩
      obtain ⟨b, hb, hiff⟩ := supported_spec (a := a) hm h.escapes h.last
      rw [hb, Except.ok.injEq, hiff]
    · cases a with
      | nil =>
        rw [pathListMatch_missing hx, matches_missing hx]
        split
        · next hmissing => rw [ih, and_iff_right hmissing]
        · next hmissing => exact iff_of_false (by simp) fun h => hmissing h.1
      | cons c a =>
        have hitem := pathItemMatch_iff (c := c) fun p hp => h.escapes p (hp ▸ List.mem_cons_self)
        rw [pathListMatch_item_true hx, matches_item hx, hitem, ih]

end

def sample : Component → Component
  | .wild => .string []
  | .string p => .string (shortest (tokens p))
  | x => x

def full : List Component → List Component
  | [] => []
  | x :: m => if x = .wildInferiors then full m else sample x :: full m

section
variable {a m : List Component} {x : Component}

theorem itemMatches_sample (x : Component) : ItemMatches x (sample x) := by
  cases x with
  | wild => exact .wild _
  | string p => exact .string (inLanguage_shortest (tokens p))
  | null | absolute | relative | up | back | wildInferiors | other =>
    exact .same _ (fun p h => by cases h)

theorem matches_full (m : List Component) : Matches m (full m) := by
  induction m with
  | nil => exact .nil
  | cons x m ih =>
    rw [full]
    split
    · next hx =>
      subst hx
      exact .inferiors [] ih
    · next hx => exact .item hx (itemMatches_sample x) ih

theorem exists_taken (x : Component) : ∃ c, pathItemMatch c x = .ok true := by
  cases x with
  | wild => exact ⟨.null, rfl⟩
  | string p =>
    refine ⟨.string (shortest ((tokens p).map Token.taken)), ?_⟩
    exact congrArg Except.ok (stringMatch_iff.mpr (inLanguage_shortest _))
  | null => exact ⟨.null, rfl⟩
  | absolute => exact ⟨.absolute, rfl⟩
  | relative => exact ⟨.relative, rfl⟩
  | up => exact ⟨.up, rfl⟩
  | back => exact ⟨.back, rfl⟩
  | wildInferiors => exact ⟨.wildInferiors, rfl⟩
  | other n => exact ⟨.other n, by simp [pathItemMatch]⟩

/-- After a list that the code takes for what stands before it, an item that is not to be compared
with strings is. -/
theorem exists_error (h : ∃ x ∈ m, ¬ Supported x) :
    ∃ w, w ≠ [] ∧ ∀ a, ∃ e, pathListMatch (w ++ a) m = .error e := by
  induction m with
  | nil => simp at h
  | cons x m ih =>
    by_cases hx : Supported x
    · have hm : ∃ x ∈ m, ¬ Supported x := by
        obtain ⟨y, hy, hnot⟩ := h
        exact ⟨y, (List.mem_cons.mp hy).resolve_left (fun e => hnot (e ▸ hx)), hnot⟩
      obtain ⟨w, hw, herror⟩ := ih hm
      by_cases hinf : x = .wildInferiors
      · subst hinf
        refine ⟨w, hw, fun a => ?_⟩
        obtain ⟨c, w, rfl⟩ := List.exists_cons_of_ne_nil hw
        obtain ⟨e, he⟩ := herror a
        have hne : m ≠ [] := by
          rintro rfl
          simp at hm
        exact ⟨e, by rw [pathListMatch_inferiors hne]; exact anyTail_error he⟩
      · obtain ⟨c, hc⟩ := exists_taken x
        refine ⟨c :: w, List.cons_ne_nil c w, fun a => ?_⟩
        obtain ⟨e, he⟩ := herror a
        exact ⟨e, by rw [List.cons_append, pathListMatch_item hinf, hc]; exact he⟩
    · have hinf : x ≠ .wildInferiors := by
        rintro rfl
        exact hx (Or.inr (Or.inr (Or.inl rfl)))
      refine ⟨[.string []], List.cons_ne_nil _ _, fun a => ⟨x, ?_⟩⟩
      rw [List.singleton_append, pathListMatch_item hinf, pathItemMatch_unsupported hx]
      rfl

theorem full_length_le (hm : ∀ x ∈ m, Supported x) (h : pathListMatch a m = .ok true) :
    (full m).length ≤ a.length := by
  induction m generalizing a with
  | nil => exact Nat.zero_le _
  | cons x m ih =>
    obtain ⟨hx, hm'⟩ := List.forall_mem_cons.mp hm
    rw [full]
    by_cases hinf : x = .wildInferiors
    · subst hinf
      rw [if_pos rfl]
      rcases eq_or_ne m [] with rfl | hne
      · exact Nat.zero_le _
      · rw [pathListMatch_inferiors hne] at h
        obtain ⟨w, t, rfl, -, ht⟩ := anyTail_true h
        rw [List.length_append]
        exact Nat.le_add_left_of_le (ih hm' ht)
    · rw [if_neg hinf]
      cases a with
      | nil =>
        rw [pathListMatch_missing hinf] at h
        split at h
        · next hmissing =>
          obtain hx | hx | hx | ⟨p, hx⟩ := hx <;> rcases hmissing with rfl | rfl <;> cases hx
        · cases h
      | cons c a => exact Nat.succ_le_succ (ih hm' ((pathListMatch_item_true hinf).mp h).2)

theorem Plain.cons (hx : x ≠ .wildInferiors) (hesc : ∀ p, x = .string p → PlainEscapes p)
    (h : Plain m) : Plain (x :: m) where
  escapes p hp := (List.mem_cons.mp hp).elim (fun e => hesc p e.symm) (h.escapes p)
  supported m' hm' := by
    rcases List.suffix_cons_iff.mp hm' with he | hm'
    · cases he
      exact absurd rfl hx
    · exact h.supported m' hm'
  last hm' := by
    rcases List.suffix_cons_iff.mp hm' with he | hm'
    · cases he
      exact hx rfl
    · exact h.last hm'

theorem plain_nil : Plain [] where
  escapes p hp := absurd hp List.not_mem_nil
  supported m hm := by cases List.suffix_nil.mp hm
  last hm := by cases List.suffix_nil.mp hm

theorem escapes_of_sample (h : pathItemMatch (sample x) x = .ok true) {p : LispString}
    (hp : x = .string p) : PlainEscapes p := by
  subst hp
  intro c hc
  exact escaped_of_shortest (stringMatch_iff.mp (Except.ok.inj h)) hc

/-- A list that is as short as possible shows all that is amiss. -/
theorem plain_of_full (hm : ∀ x ∈ m, Supported x) (h : pathListMatch (full m) m = .ok true) :
    Plain m := by
  induction m with
  | nil => exact plain_nil
  | cons x m ih =>
    obtain ⟨hx, hm'⟩ := List.forall_mem_cons.mp hm
    rw [full] at h
    by_cases hinf : x = .wildInferiors
    · subst hinf
      rw [if_pos rfl] at h
      have hplain : Plain m ∧ m ≠ [.wildInferiors] := by
        rcases eq_or_ne m [] with rfl | hne
        · exact ⟨plain_nil, (List.cons_ne_nil _ _).symm⟩
        · rw [pathListMatch_inferiors hne] at h
          obtain ⟨w, t, hs, ht, hmatch⟩ := anyTail_true h
          have hlen := full_length_le hm' hmatch
          have hs' := congrArg List.length hs
          rw [List.length_append] at hs'
          have hw : w = [] := List.length_eq_zero_iff.mp (by omega)
          rw [hw, List.nil_append] at hs
          refine ⟨ih hm' (hs ▸ hmatch), ?_⟩
          rintro rfl
          exact ht hs.symm
      refine ⟨fun p hp => ?_, fun m' hm'' y hy => ?_, fun hlast => ?_⟩
      · exact hplain.1.escapes p ((List.mem_cons.mp hp).resolve_left fun e => by cases e)
      · exact hm y (hm''.subset (List.mem_cons_of_mem _ hy))
      · rcases List.suffix_cons_iff.mp hlast with he | hlast
        · exact hplain.2 (List.cons.inj he).2.symm
        · exact hplain.1.last hlast
    · rw [if_neg hinf] at h
      obtain ⟨hitem, hrest⟩ := (pathListMatch_item_true hinf).mp h
      exact .cons hinf (fun p => escapes_of_sample hitem) (ih hm' hrest)

theorem plain_of_exact (h : ∀ a, pathListMatch a m = .ok true ↔ Matches m a) : Plain m := by
  induction m with
  | nil => exact plain_nil
  | cons x m ih =>
    have hfull := (h _).mpr (matches_full (x :: m))
    by_cases hinf : x = .wildInferiors
    · subst hinf
      refine plain_of_full (List.forall_mem_cons.mpr ⟨Or.inr (Or.inr (Or.inl rfl)), ?_⟩) hfull
      by_contra hnot
      have hsome : ∃ x ∈ m, ¬ Supported x := by
        by_contra hall
        exact hnot fun x hx => by_contra fun hsup => hall ⟨x, hx, hsup⟩
      obtain ⟨w, hw, herror⟩ := exists_error hsome
      obtain ⟨c, w, rfl⟩ := List.exists_cons_of_ne_nil hw
      obtain ⟨e, he⟩ := herror (full m)
      have hne : m ≠ [] := by
        rintro rfl
        simp at hsome
      have hmatch := (h _).mpr (.inferiors (c :: w) (matches_full m))
      rw [pathListMatch_inferiors hne, List.cons_append, anyTail_error he] at hmatch
      cases hmatch
    · rw [full, if_neg hinf] at hfull
      obtain ⟨hitem, -⟩ := (pathListMatch_item_true hinf).mp hfull
      refine .cons hinf (fun p => escapes_of_sample hitem) (ih fun a => ?_)
      have hstep := h (sample x :: a)
      rwa [pathListMatch_item_true hinf, and_iff_right hitem, matches_item hinf,
        and_iff_right (itemMatches_sample x)] at hstep

end

/-- Strings and lists are matched as their patterns mean, all of them, if and only if in strings
only backslashes are escaped, and in lists also no two :wild-inferiors end the mask and nothing but
strings, :wild and NIL follows one. -/
theorem matching_exact_iff (p : LispString) (mask : List Component) :
    ((∀ s, stringMatch s p = true ↔ InLanguage (tokens p) s) ↔ PlainEscapes p) ∧
      ((∀ a, pathListMatch a mask = .ok true ↔ Matches mask a) ↔ Plain mask) :=
  ⟨string_exact_iff p, plain_of_exact, fun h _ => plain_spec h⟩

/-- An escaped asterisk does not match one, and no components at all do not match twice any. -/
theorem matching_not_exact :
    ¬ (∀ s p, stringMatch s p = true ↔ InLanguage (tokens p) s) ∧
      ¬ ∀ a mask, pathListMatch a mask = .ok true ↔ Matches mask a := by
  constructor
  · intro h
    have hmatch : InLanguage (tokens [backslash, asterisk]) [asterisk] := .escaped asterisk .nil
    exact absurd ((h _ _).mpr hmatch) (by decide)
  · intro h
    have hmatch : Matches [.wildInferiors, .wildInferiors] [] :=
      .inferiors [] (.inferiors [] .nil)
    exact absurd ((h _ _).mpr hmatch) (by decide)

end WildcardMatching
