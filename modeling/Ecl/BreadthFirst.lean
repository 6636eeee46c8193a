import Mathlib.Data.Finset.Card

/-! Numbering the nodes of a graph while it is searched: a node gets its number when it is first
met, and waits in a queue until it is visited. Nodes may stand for the same thing. -/
namespace BreadthFirst

variable {K V E α β : Type}

structure Worklist (K : Type) where
  keys : List K
  queue : List K
  deriving DecidableEq

abbrev Visit (K E : Type) := StateT (Worklist K) (Except E)

structure Sameness (K : Type) where
  same : K → K → Bool
  refl : ∀ k, same k k
  symm : ∀ k l, same k l → same l k
  trans : ∀ k l m, same k l → same l m → same k m

section numbering
variable (S : Sameness K)

def number? (keys : List K) (k : K) : Option ℕ := keys.findIdx? (S.same k)

/-- The number of a node, a new one if the node is met for the first time. -/
def intern (k : K) : Visit K E ℕ := fun w =>
  match number? S w.keys k with
  | some i => .ok (i, w)
  | none => .ok (w.keys.length, ⟨w.keys ++ [k], w.queue ++ [k]⟩)

def Distinct (keys : List K) : Prop := keys.Pairwise fun k l => S.same k l = false

structure Extends (rs : List K) (w w' : Worklist K) : Prop where
  grown : ∃ new, w'.keys = w.keys ++ new ∧ w'.queue = w.queue ++ new ∧ ∀ k ∈ new, k ∈ rs
  numbered : ∀ k ∈ rs, (number? S w'.keys k).isSome
  distinct : Distinct S w.keys → Distinct S w'.keys

def Emits (m : Visit K E α) (f : (K → ℕ) → α) (rs : List K) : Prop :=
  ∀ w, ∃ x w', m w = .ok (x, w') ∧ Extends S rs w w' ∧
    ∀ num : K → ℕ, (∀ k ∈ rs, number? S w'.keys k = some (num k)) → x = f num

inductive Interns : {α : Type} → Visit K E α → ((K → ℕ) → α) → List K → Prop where
  | ret {α : Type} (x : α) : Interns (pure x) (fun _ => x) []
  | one (k : K) : Interns (intern S k) (fun num => num k) [k]
  | seq {α β : Type} {m : Visit K E α} {f : (K → ℕ) → α} {rs rs' : List K} {k : α → Visit K E β}
      {g : α → (K → ℕ) → β} (hm : Interns m f rs) (hk : ∀ x, Interns (k x) (g x) rs') :
      Interns (m >>= k) (fun num => g (f num) num) (rs ++ rs')

def meet (w : Worklist K) (k : K) : Worklist K :=
  match number? S w.keys k with
  | some _ => w
  | none => ⟨w.keys ++ [k], w.queue ++ [k]⟩

/-- The order in which breadth-first search meets the nodes, with at most fuel visits. -/
def search (refs : K → List K) : ℕ → Worklist K → List K
  | 0, w => w.keys
  | fuel + 1, w =>
    match w.queue with
    | [] => w.keys
    | k :: queue => search refs fuel ((refs k).foldl (meet S) ⟨w.keys, queue⟩)

variable {S}

theorem number_append {keys new : List K} {k : K} {i : ℕ} (h : number? S keys k = some i) :
    number? S (keys ++ new) k = some i := by
  rw [number?, List.findIdx?_append, show keys.findIdx? (S.same k) = some i from h]
  rfl

theorem distinct_nodup {keys : List K} (h : Distinct S keys) : keys.Nodup := by
  refine List.Pairwise.imp ?_ h
  rintro k _ hsame rfl
  rw [S.refl k] at hsame
  cases hsame

theorem number_congr {k l : K} (h : S.same k l) (keys : List K) :
    number? S keys k = number? S keys l := by
  have hsame : S.same k = S.same l := by
    funext m
    rw [Bool.eq_iff_iff]
    exact ⟨S.trans l k m (S.symm k l h), S.trans k l m h⟩
  rw [number?, number?, hsame]

theorem number_spec {keys : List K} {k : K} {i : ℕ} (h : number? S keys k = some i) :
    ∃ l, keys[i]? = some l ∧ S.same k l := by
  obtain ⟨hi, hsame, -⟩ := List.findIdx?_eq_some_iff_getElem.mp h
  exact ⟨keys[i], List.getElem?_eq_getElem hi, hsame⟩

theorem same_iff_number_eq {keys : List K} {k l : K} {i j : ℕ} (hi : number? S keys k = some i)
    (hj : number? S keys l = some j) : i = j ↔ S.same k l := by
  constructor
  · rintro rfl
    obtain ⟨m, hm, hk⟩ := number_spec hi
    obtain ⟨m', hm', hl⟩ := number_spec hj
    cases hm.symm.trans hm'
    exact S.trans k m l hk (S.symm l m hl)
  · intro h
    rw [number_congr h, hj] at hi
    exact (Option.some.inj hi).symm

theorem number_getElem {keys : List K} (h : Distinct S keys) {k : K} {i : ℕ}
    (hk : keys[i]? = some k) : number? S keys k = some i := by
  obtain ⟨hi, rfl⟩ := List.getElem?_eq_some_iff.mp hk
  refine List.findIdx?_eq_some_iff_getElem.mpr ⟨hi, S.refl _, fun j hj => ?_⟩
  have hapart := List.pairwise_iff_getElem.mp h j i (hj.trans hi) hi hj
  intro hsame
  rw [S.symm _ _ hsame] at hapart
  cases hapart

section rules

theorem Extends.refl (w : Worklist K) : Extends S [] w w where
  grown := ⟨[], by simp, by simp, by simp⟩
  numbered := by simp
  distinct h := h

theorem Extends.number {rs : List K} {w w' : Worklist K} (h : Extends S rs w w') {k : K} {i : ℕ}
    (hk : number? S w.keys k = some i) : number? S w'.keys k = some i := by
  obtain ⟨new, hkeys, -⟩ := h.grown
  rw [hkeys]
  exact number_append hk

theorem Extends.trans {rs rs' : List K} {w w' w'' : Worklist K} (h : Extends S rs w w')
    (h' : Extends S rs' w' w'') : Extends S (rs ++ rs') w w'' := by
  obtain ⟨new, hkeys, hqueue, hnew⟩ := h.grown
  obtain ⟨new', hkeys', hqueue', hnew'⟩ := h'.grown
  constructor
  case grown =>
    refine ⟨new ++ new', by rw [hkeys', hkeys, List.append_assoc],
      by rw [hqueue', hqueue, List.append_assoc], fun k hk => ?_⟩
    rcases List.mem_append.mp hk with hk | hk
    · exact List.mem_append_left _ (hnew k hk)
    · exact List.mem_append_right _ (hnew' k hk)
  case numbered =>
    intro k hk
    rcases List.mem_append.mp hk with hk | hk
    · obtain ⟨i, hi⟩ := Option.isSome_iff_exists.mp (h.numbered k hk)
      rw [h'.number hi]
      rfl
    · exact h'.numbered k hk
  case distinct => exact fun hd => h'.distinct (h.distinct hd)

theorem emits_pure (x : α) : Emits S (pure x : Visit K E α) (fun _ => x) [] :=
  fun w => ⟨x, w, rfl, .refl w, fun _ _ => rfl⟩

theorem emits_bind {m : Visit K E α} {f : (K → ℕ) → α} {rs rs' : List K} {k : α → Visit K E β}
    {g : α → (K → ℕ) → β} (hm : Emits S m f rs) (hk : ∀ x, Emits S (k x) (g x) rs') :
    Emits S (m >>= k) (fun num => g (f num) num) (rs ++ rs') := by
  intro w
  obtain ⟨x, w₁, hx, hext, hval⟩ := hm w
  obtain ⟨y, w₂, hy, hext', hval'⟩ := hk x w₁
  refine ⟨y, w₂, ?_, hext.trans hext', fun num hnum => ?_⟩
  · simp only [bind, StateT.bind, hx, Except.bind]
    exact hy
  · have hfirst : x = f num := by
      refine hval num fun r hr => ?_
      obtain ⟨i, hi⟩ := Option.isSome_iff_exists.mp (hext.numbered r hr)
      rw [hi, ← hext'.number hi]
      exact hnum r (List.mem_append_left _ hr)
    rw [hval' num fun r hr => hnum r (List.mem_append_right _ hr), hfirst]

theorem emits_intern (k : K) : Emits S (intern S k : Visit K E ℕ) (fun num => num k) [k] := by
  intro w
  cases hk : number? S w.keys k with
  | some i =>
    refine ⟨i, w, by rw [intern, hk], ⟨⟨[], by simp, by simp, by simp⟩, ?_, fun h => h⟩, ?_⟩
    · intro l hl
      rw [List.mem_singleton.mp hl, hk]
      rfl
    · intro num hnum
      exact Option.some.inj (hk.symm.trans (hnum k (List.mem_singleton.mpr rfl)))
  | none =>
    have hnone : ∀ l ∈ w.keys, S.same k l = false := by
      intro l hl
      simpa using List.findIdx?_eq_none_iff.mp hk l hl
    have hnew : number? S (w.keys ++ [k]) k = some w.keys.length := by
      rw [number?, List.findIdx?_append, show w.keys.findIdx? (S.same k) = none from hk]
      simp [List.findIdx?_cons, S.refl]
    refine ⟨w.keys.length, ⟨w.keys ++ [k], w.queue ++ [k]⟩, by rw [intern, hk],
      ⟨⟨[k], rfl, rfl, fun _ h => h⟩, ?_, fun h => ?_⟩, fun num hnum => ?_⟩
    · intro l hl
      rw [List.mem_singleton.mp hl, hnew]
      rfl
    · refine List.pairwise_append.mpr ⟨h, List.pairwise_singleton _ _, fun l hl m hm => ?_⟩
      rw [List.mem_singleton.mp hm]
      by_contra hsame
      rw [Bool.not_eq_false] at hsame
      have := hnone l hl
      rw [S.symm l k hsame] at this
      cases this
    · exact Option.some.inj (hnew.symm.trans (hnum k (List.mem_singleton.mpr rfl)))

theorem Interns.emits {m : Visit K E α} {f : (K → ℕ) → α} {rs : List K} (h : Interns S m f rs) :
    Emits S m f rs := by
  induction h with
  | ret x => exact emits_pure x
  | one k => exact emits_intern k
  | seq _ _ hm hk => exact emits_bind hm hk

theorem Interns.map {m : Visit K E α} {f : (K → ℕ) → α} {rs : List K} (hm : Interns S m f rs)
    (g : α → β) : Interns S (do let x ← m; pure (g x)) (fun num => g (f num)) rs := by
  have h := hm.seq fun x => .ret (g x)
  rwa [List.append_nil] at h

theorem Interns.mapM {R : Type} {visit : R → Visit K E β} {f : R → (K → ℕ) → β}
    {refs : R → List K} (h : ∀ r, Interns S (visit r) (f r) (refs r)) (l : List R) :
    Interns S (l.mapM visit) (fun num => l.map fun r => f r num) (l.flatMap refs) := by
  induction l with
  | nil => exact .ret []
  | cons r l ih =>
    rw [List.mapM_cons]
    have hrest := fun x => ih.seq (k := fun xs => pure (x :: xs)) fun xs => .ret (x :: xs)
    have hall := (h r).seq hrest
    simpa using hall

theorem Interns.meets {m : Visit K E α} {f : (K → ℕ) → α} {rs : List K} (h : Interns S m f rs)
    (w : Worklist K) : ∃ x, m w = .ok (x, rs.foldl (meet S) w) := by
  induction h generalizing w with
  | ret x => exact ⟨x, rfl⟩
  | one k =>
    rw [List.foldl_cons, List.foldl_nil, intern, meet]
    cases number? S w.keys k with
    | none => exact ⟨_, rfl⟩
    | some i => exact ⟨i, rfl⟩
  | seq _ _ ihm ihk =>
    obtain ⟨x, hx⟩ := ihm w
    obtain ⟨y, hy⟩ := ihk x _
    refine ⟨y, ?_⟩
    rw [List.foldl_append]
    simp only [bind, StateT.bind, hx, Except.bind]
    exact hy

end rules

section search
variable (refs : K → List K)

def Reached (root : K) : K → Prop := Relation.ReflTransGen (fun k l => l ∈ refs k) root

structure Progress (f : K → (K → ℕ) → V) (root : K) (done : List K) (w : Worklist K)
    (out : List V) : Prop where
  keys : w.keys = done ++ w.queue
  first : w.keys.head? = some root
  distinct : Distinct S w.keys
  closed : ∀ k ∈ done, ∀ r ∈ refs k, (number? S w.keys r).isSome
  out : ∀ num : K → ℕ, (∀ k ∈ done, ∀ r ∈ refs k, number? S w.keys r = some (num r)) →
    out = done.map fun k => f k num
  reached : ∀ k ∈ w.keys, Reached refs root k

variable {refs} {f : K → (K → ℕ) → V} {root : K}

theorem Progress.start : Progress (S := S) refs f root [] ⟨[root], [root]⟩ [] where
  keys := rfl
  first := rfl
  distinct := List.pairwise_singleton _ _
  closed := by simp
  out := by simp
  reached := by
    intro k hk
    rw [List.mem_singleton.mp hk]
    exact .refl

theorem Progress.step {done queue keys : List K} {k : K} {out : List V}
    (h : Progress (S := S) refs f root done ⟨keys, k :: queue⟩ out)
    {visit : Visit K E V} (hvisit : Emits S visit (f k) (refs k)) :
    ∃ v w', visit ⟨keys, queue⟩ = .ok (v, w') ∧
      Progress (S := S) refs f root (done ++ [k]) w' (out ++ [v]) := by
  obtain ⟨v, w', hrun, hext, hval⟩ := hvisit ⟨keys, queue⟩
  obtain ⟨new, hkeys, hqueue, hnew⟩ := hext.grown
  have hbefore : keys = done ++ k :: queue := h.keys
  refine ⟨v, w', hrun, ?_⟩
  constructor
  case keys => rw [hkeys, hqueue, hbefore]; simp
  case first =>
    rw [hkeys]
    exact (List.head?_append_of_ne_nil _ (by rw [hbefore]; simp)).trans h.first
  case distinct => exact hext.distinct h.distinct
  case closed =>
    intro l hl r hr
    rcases List.mem_append.mp hl with hl | hl
    · obtain ⟨i, hi⟩ := Option.isSome_iff_exists.mp (h.closed l hl r hr)
      rw [hext.number hi]
      rfl
    · rw [List.mem_singleton.mp hl] at hr
      exact hext.numbered r hr
  case out =>
    intro num hnum
    have hold : out = done.map fun k => f k num := by
      refine h.out num fun l hl r hr => ?_
      obtain ⟨i, hi⟩ := Option.isSome_iff_exists.mp (h.closed l hl r hr)
      rw [hi, ← hext.number hi]
      exact hnum l (List.mem_append_left _ hl) r hr
    have hone : v = f k num := hval num fun r hr =>
      hnum k (List.mem_append_right _ (List.mem_singleton.mpr rfl)) r hr
    rw [hold, hone, List.map_append, List.map_singleton]
  case reached =>
    intro l hl
    rw [hkeys] at hl
    rcases List.mem_append.mp hl with hl | hl
    · exact h.reached l hl
    · have hk : Reached refs root k := h.reached k (by rw [hbefore]; simp)
      exact hk.tail (hnew l hl)

theorem Progress.length_le {done : List K} {w : Worklist K} {out : List V} {nodes : Finset K}
    (h : Progress (S := S) refs f root done w out)
    (hnodes : ∀ k, Reached refs root k → k ∈ nodes) :
    done.length + w.queue.length ≤ nodes.card := by
  classical
  have hnodup := distinct_nodup h.distinct
  have hsub : w.keys.toFinset ⊆ nodes := by
    intro k hk
    exact hnodes k (h.reached k (List.mem_toFinset.mp hk))
  have hcard := Finset.card_le_card hsub
  rw [List.toFinset_card_of_nodup hnodup, h.keys, List.length_append] at hcard
  exact hcard

theorem Progress.numbered {done : List K} {out : List V}
    (h : Progress (S := S) refs f root done ⟨done, []⟩ out)
    (hsame : ∀ k l, S.same k l → ∀ r ∈ refs k, ∃ r' ∈ refs l, S.same r r') {k : K}
    (hk : Reached refs root k) : ∃ i, number? S done k = some i := by
  induction hk with
  | refl =>
    have hroot : done[0]? = some root := List.head?_eq_getElem?.symm.trans h.first
    exact ⟨0, number_getElem h.distinct hroot⟩
  | tail _ hr ih =>
    rename_i k r _
    obtain ⟨i, hi⟩ := ih
    obtain ⟨l, hl, hkl⟩ := number_spec hi
    obtain ⟨r', hr', hrr'⟩ := hsame k l hkl r hr
    rw [number_congr hrr']
    exact Option.isSome_iff_exists.mp (h.closed l (List.mem_of_getElem? hl) r' hr')

end search

end numbering

end BreadthFirst
