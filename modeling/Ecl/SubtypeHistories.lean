import Ecl.MatchingQueries

/-! # `subtypep` after earlier queries

Runs of queries on one result cache. The cache is asked with the two specifiers alone, so
an answer of one environment serves a query in another, and the answer to a question of
the decision procedure, given with the tags of one query, serves another query. Where no
answer is used that way, what was asked before leaves no trace. -/
namespace TypeTags

inductive Query where
  | subtypep (t1 t2 : Spec) (env : Env)
  | typeEqual (t1 t2 : Spec) (env : Env)

def Query.run (w : World) (serial depth : ℕ) : Query → TypeM (Bool × Bool)
  | .subtypep t1 t2 env =>
    TypeTags.subtypep w serial env (canonical w serial env depth) false t1 t2
  | .typeEqual t1 t2 env =>
    TypeM.withTypeDatabase (fastTypeEqual (canonical w serial env depth) t1 t2)

/-- The cache, the number of queries so far, and what was returned or signalled for them. -/
structure Image where
  cache : Cache
  serial : ℕ
  answers : List (Query × Except Stop (Bool × Bool))

namespace Image

def initial : Image := ⟨fun _ => none, 0, []⟩

variable (w : World) (im : Image) (depth : ℕ) (q : Query)

def answer : Except Stop (Bool × Bool) × State :=
  q.run w im.serial depth ⟨Database.initial, im.cache, []⟩

def ask : Image :=
  { cache := (im.answer w depth q).2.cache
    serial := im.serial + 1
    answers :=
      match (im.answer w depth q).1 with
      | .error .exhausted => im.answers
      | r => (q, r) :: im.answers }

/-- Every answer the query takes from the cache was stored during that query, or is the
answer to it that an earlier query under the same environment got. -/
def TakesOwnAnswers : Prop := ∀ h ∈ (im.answer w depth q).2.hits, h.Own

end Image

/-- The images that queries lead to when every one of them meets `ok`. -/
inductive Reached (w : World) (ok : Image → ℕ → Query → Prop) : Image → Prop where
  | initial : Reached w ok Image.initial
  | ask {im : Image} (hr : Reached w ok im) (depth : ℕ) (q : Query) (hok : ok im depth q) :
    Reached w ok (im.ask w depth q)

def Settled (w : World) (q : Query) (r : Except Stop (Bool × Bool)) : Prop :=
  ∃ n, ∀ m, n ≤ m → (Image.initial.answer w m q).1 = r

theorem Settled.unique {w : World} {q : Query} {r r' : Except Stop (Bool × Bool)}
    (h : Settled w q r) (h' : Settled w q r') : r = r' := by
  obtain ⟨n, hn⟩ := h
  obtain ⟨n', hn'⟩ := h'
  exact (hn (max n n') (le_max_left ..)).symm.trans (hn' _ (le_max_right ..))

structure Image.Faithful (w : World) (im : Image) : Prop where
  older : ∀ i e, im.cache i = some e → e.origin.serial < im.serial
  cached : ∀ i e, im.cache i = some e → e.origin.nested = false →
    Settled w (.subtypep e.t1 e.t2 e.origin.environment) (.ok (e.test, e.confident))
  answered : ∀ q r, (q, r) ∈ im.answers → Settled w q r

section Step

variable {w : World} {im : Image} {depth : ℕ}

/-- What `Faithful` says of the cache. -/
def CacheFaithful (w : World) (serial : ℕ) (cache : Cache) : Prop :=
  ∀ i e, cache i = some e → e.origin.serial < serial ∧ (e.origin.nested = false →
    Settled w (.subtypep e.t1 e.t2 e.origin.environment) (.ok (e.test, e.confident)))

theorem Image.Faithful.cacheFaithful (h : im.Faithful w) :
    CacheFaithful w im.serial im.cache :=
  fun i e he => ⟨h.older i e he, h.cached i e he⟩

theorem CacheFaithful.mono {serial serial' : ℕ} {cache : Cache}
    (h : CacheFaithful w serial cache) (hle : serial ≤ serial') :
    CacheFaithful w serial' cache := by
  intro i e he
  obtain ⟨hlt, hsettled⟩ := h i e he
  exact ⟨by omega, hsettled⟩

theorem related_initial (h : im.Faithful w) :
    Related im.serial 0 ⟨Database.initial, im.cache, []⟩
      ⟨Database.initial, Image.initial.cache, []⟩ where
  database := rfl
  current i := by
    change TypeTags.current im.serial (im.cache i) = none
    cases he : im.cache i with
    | none => rfl
    | some e =>
      have hlt := h.older i e he
      simp [TypeTags.current, show e.origin.serial ≠ im.serial by omega]
  clean i e he := by cases he

theorem Follows.cacheFaithful {α : Type} {x y : TypeM α}
    (hx : Follows im.serial 0 x y) (h : im.Faithful w) (hits : List Hit) :
    CacheFaithful w (im.serial + 1) (x ⟨Database.initial, im.cache, hits⟩).2.cache := by
  intro i e he
  rcases hx.stores _ i e he with hold | ⟨hserial, hnested⟩
  · exact h.cacheFaithful.mono (Nat.le_succ _) i e hold
  · exact ⟨by omega, fun hf => by rw [hnested] at hf; cases hf⟩

/-- A query of the user without the look at the cache before it and the store after it. -/
def computed (w : World) (im : Image) (depth : ℕ) (t1 t2 : Spec) (env : Env) :
    Except Stop (Bool × Bool) × State :=
  TypeM.withTypeDatabase (fastSubtypep (canonical w im.serial env depth) t1 t2)
    ⟨Database.initial, im.cache, []⟩

def stored (w : World) (im : Image) (t1 t2 : Spec) (env : Env) :
    Except Stop (Bool × Bool) × State → Except Stop (Bool × Bool) × State
  | (.error e, s) => (.error e, s)
  | (.ok a, s) =>
    let entry : Entry := ⟨t1, t2, a.1, a.2, ⟨im.serial, env, false⟩⟩
    (.ok a, { s with cache := Function.update s.cache (w.hashEql t1 t2) (some entry) })

theorem stored_fst (t1 t2 : Spec) (env : Env) (r : Except Stop (Bool × Bool) × State) :
    (stored w im t1 t2 env r).1 = r.1 := by
  rcases r with ⟨e | a, s⟩ <;> rfl

theorem stored_hits (t1 t2 : Spec) (env : Env) (r : Except Stop (Bool × Bool) × State) :
    (stored w im t1 t2 env r).2.hits = r.2.hits := by
  rcases r with ⟨e | a, s⟩ <;> rfl

theorem TypeM.bind_ok {α β : Type} {x : TypeM α} {f : α → TypeM β} {s s' : State} {a : α}
    (h : x s = (.ok a, s')) : (x >>= f) s = f a s' := by
  change TypeM.bind x f s = f a s'
  simp only [TypeM.bind, h]

theorem lookUp_hit {s : State} {i : Fin 256} {e : Entry} {t1 t2 : Spec} (wanted : Origin)
    (h : s.cache i = some e) (hkey : (e.t1.eql t1 && e.t2.eql t2) = true) :
    TypeM.lookUp i t1 t2 wanted s = (.ok (some (e.test, e.confident)),
      { s with hits := ⟨e.origin, wanted⟩ :: s.hits }) := by
  simp only [TypeM.lookUp, h, if_pos hkey]

theorem lookUp_miss {s : State} {i : Fin 256} {t1 t2 : Spec} (wanted : Origin)
    (h : ∀ e, s.cache i = some e → ¬(e.t1.eql t1 && e.t2.eql t2) = true) :
    TypeM.lookUp i t1 t2 wanted s = (.ok none, s) := by
  unfold TypeM.lookUp
  cases hs : s.cache i with
  | none => rfl
  | some e => simp only [if_neg (h e hs)]

/-- Nothing in the slot of the query answers it. -/
def Misses (w : World) (im : Image) (t1 t2 : Spec) : Prop :=
  ∀ e, im.cache (w.hashEql t1 t2) = some e → ¬(e.t1.eql t1 && e.t2.eql t2) = true

section NoEasyCase

variable {t1 t2 : Spec} (env : Env) (heql : t1.eql t2 = false)
variable (hclasses : bothClasses w t1 t2 = none)

include heql hclasses

theorem answer_eq : im.answer w depth (.subtypep t1 t2 env) =
    cachedSubtypep w im.serial env (canonical w im.serial env depth) false t1 t2
      ⟨Database.initial, im.cache, []⟩ := by
  simp only [Image.answer, Query.run, subtypep, heql, hclasses]
  rfl

theorem answer_of_miss (hmiss : Misses w im t1 t2) :
    im.answer w depth (.subtypep t1 t2 env) =
      stored w im t1 t2 env (computed w im depth t1 t2 env) := by
  rw [answer_eq env heql hclasses]
  refine (TypeM.bind_ok (@lookUp_miss ⟨Database.initial, im.cache, []⟩ _ t1 t2 _ hmiss)).trans ?_
  change TypeM.withTypeDatabase (TypeM.bind _ _) _ = _
  simp only [computed, TypeM.withTypeDatabase, TypeM.bind]
  rcases fastSubtypep (canonical w im.serial env depth) t1 t2 _ with ⟨e | a, s⟩ <;> rfl

theorem answer_of_hit {e : Entry} (he : im.cache (w.hashEql t1 t2) = some e)
    (hkey : (e.t1.eql t1 && e.t2.eql t2) = true) :
    im.answer w depth (.subtypep t1 t2 env) = (.ok (e.test, e.confident),
      ⟨Database.initial, im.cache, [⟨e.origin, ⟨im.serial, env, false⟩⟩]⟩) := by
  rw [answer_eq env heql hclasses]
  exact TypeM.bind_ok (lookUp_hit _ he hkey)

end NoEasyCase

theorem misses_initial (t1 t2 : Spec) : Misses w Image.initial t1 t2 := by
  intro e he
  cases he

theorem computed_settled (h : im.Faithful w) (t1 t2 : Spec) (env : Env)
    (heql : t1.eql t2 = false) (hclasses : bothClasses w t1 t2 = none)
    (hown : ∀ x ∈ (computed w im depth t1 t2 env).2.hits, x.Own)
    (hne : (computed w im depth t1 t2 env).1 ≠ .error .exhausted) :
    Settled w (.subtypep t1 t2 env) (computed w im depth t1 t2 env).1 := by
  refine ⟨depth, fun m hm => ?_⟩
  rw [answer_of_miss env heql hclasses (misses_initial t1 t2), stored_fst]
  have hf := (fastSubtypep_follows (@canonical_follows w im.serial 0 env _ _ hm)
    t1 t2).withTypeDatabase
  exact (hf.same _ _ (related_initial h) hown hne).1

theorem settled_of_constant {q : Query} {r : Except Stop (Bool × Bool)}
    (h : ∀ m, (Image.initial.answer w m q).1 = r) : Settled w q r := ⟨0, fun m _ => h m⟩

structure Keeps (w : World) (im : Image) (q : Query)
    (r : Except Stop (Bool × Bool) × State) : Prop where
  cache : CacheFaithful w (im.serial + 1) r.2.cache
  settled : r.1 ≠ .error .exhausted → Settled w q r.1

theorem typeEqual_keeps (h : im.Faithful w) (t1 t2 : Spec) (env : Env)
    (hown : im.TakesOwnAnswers w depth (.typeEqual t1 t2 env)) :
    Keeps w im (.typeEqual t1 t2 env) (im.answer w depth (.typeEqual t1 t2 env)) := by
  have hfollows : ∀ m, depth ≤ m → Follows im.serial 0
      ((Query.typeEqual t1 t2 env).run w im.serial depth)
      ((Query.typeEqual t1 t2 env).run w 0 m) := fun m hm =>
    (fastTypeEqual_follows (canonical_follows w env hm) t1 t2).withTypeDatabase
  refine ⟨(hfollows depth le_rfl).cacheFaithful h [], fun hne => ⟨depth, fun m hm => ?_⟩⟩
  exact ((hfollows m hm).same _ _ (related_initial h) hown hne).1

theorem computed_keeps (h : im.Faithful w) (t1 t2 : Spec) (env : Env)
    (heql : t1.eql t2 = false) (hclasses : bothClasses w t1 t2 = none)
    (hown : ∀ x ∈ (computed w im depth t1 t2 env).2.hits, x.Own) :
    Keeps w im (.subtypep t1 t2 env)
      (stored w im t1 t2 env (computed w im depth t1 t2 env)) := by
  have hsettled := computed_settled h t1 t2 env heql hclasses hown
  have hcache : CacheFaithful w (im.serial + 1)
      (computed w im depth t1 t2 env).2.cache :=
    ((fastSubtypep_follows (@canonical_follows w im.serial 0 env _ _ le_rfl)
      t1 t2).withTypeDatabase).cacheFaithful h []
  refine ⟨?_, fun hne => ?_⟩
  · rcases hr : computed w im depth t1 t2 env with ⟨e | a, s⟩ <;> rw [hr] at hsettled hcache
    · exact hcache
    · intro i e he
      by_cases hi : i = w.hashEql t1 t2
      · subst hi
        simp only [stored, Function.update_self, Option.some.injEq] at he
        subst he
        exact ⟨Nat.lt_succ_self _, fun _ => hsettled (by simp)⟩
      · simp only [stored, Function.update_of_ne hi] at he
        exact hcache i e he
  · rw [stored_fst] at hne ⊢
    exact hsettled hne

theorem subtypep_keeps (h : im.Faithful w) (t1 t2 : Spec) (env : Env)
    (hown : im.TakesOwnAnswers w depth (.subtypep t1 t2 env)) :
    Keeps w im (.subtypep t1 t2 env) (im.answer w depth (.subtypep t1 t2 env)) := by
  have hcache := h.cacheFaithful.mono (Nat.le_succ im.serial)
  cases heql : t1.eql t2 with
  | true =>
    have hans : ∀ (im : Image) m, im.answer w m (.subtypep t1 t2 env) =
        (.ok (true, true), ⟨Database.initial, im.cache, []⟩) := by
      intro im m
      simp only [Image.answer, Query.run, subtypep, heql, if_true]
      rfl
    rw [hans]
    exact ⟨hcache, fun _ => settled_of_constant fun m => by rw [hans]⟩
  | false =>
    cases hclasses : bothClasses w t1 t2 with
    | some c =>
      have hans : ∀ (im : Image) m, im.answer w m (.subtypep t1 t2 env) =
          (.ok (w.subclassp c.1 c.2, true), ⟨Database.initial, im.cache, []⟩) := by
        intro im m
        simp only [Image.answer, Query.run, subtypep, heql, hclasses]
        rfl
      rw [hans]
      exact ⟨hcache, fun _ => settled_of_constant fun m => by rw [hans]⟩
    | none =>
      by_cases hmiss : Misses w im t1 t2
      · rw [Image.TakesOwnAnswers, answer_of_miss env heql hclasses hmiss, stored_hits] at hown
        rw [answer_of_miss env heql hclasses hmiss]
        exact computed_keeps h t1 t2 env heql hclasses hown
      · obtain ⟨e, he, hkey⟩ : ∃ e, im.cache (w.hashEql t1 t2) = some e ∧
            (e.t1.eql t1 && e.t2.eql t2) = true := by
          simpa [Misses] using hmiss
        rw [Image.TakesOwnAnswers, answer_of_hit env heql hclasses he hkey] at hown
        rw [answer_of_hit env heql hclasses he hkey]
        refine ⟨hcache, fun _ => ?_⟩
        obtain ⟨h1, h2⟩ := Bool.and_eq_true_iff.mp hkey
        have hsettled := h.cached _ e he
        rw [Spec.eq_of_eql h1, Spec.eq_of_eql h2] at hsettled
        rcases hown _ (List.mem_cons_self ..) with hserial | ⟨hnested, -, henv⟩
        · exact absurd hserial (Nat.ne_of_lt (h.older _ e he))
        · rw [henv] at hsettled
          exact hsettled hnested

end Step

theorem Image.Faithful.ask {w : World} {im : Image} (h : im.Faithful w) {depth : ℕ} {q : Query}
    (hown : im.TakesOwnAnswers w depth q) : (im.ask w depth q).Faithful w := by
  have hkeeps : Keeps w im q (im.answer w depth q) := by
    cases q with
    | subtypep t1 t2 env => exact subtypep_keeps h t1 t2 env hown
    | typeEqual t1 t2 env => exact typeEqual_keeps h t1 t2 env hown
  refine ⟨fun i e he => (hkeeps.cache i e he).1, fun i e he => (hkeeps.cache i e he).2, ?_⟩
  intro q' r hmem
  unfold Image.ask at hmem
  dsimp only at hmem
  split at hmem
  · exact h.answered q' r hmem
  · next hr =>
    rcases List.mem_cons.mp hmem with heq | hmem
    · cases heq
      exact hkeeps.settled hr
    · exact h.answered q' r hmem

theorem faithful_of_reached {w : World} {im : Image}
    (h : Reached w (Image.TakesOwnAnswers w) im) : im.Faithful w := by
  induction h with
  | initial =>
    constructor
    · intro i e he
      cases he
    · intro i e he
      cases he
    · intro q r hmem
      cases hmem
  | ask hr depth q hok ih => exact ih.ask hok

/-- The type definitions of the system, no classes, and one slot for every question. -/
def systemWorld : World where
  listAt _ := []
  deftype := systemDeftype
  isClass _ := false
  findClass _ := none
  className _ := none
  finalized _ := false
  precedenceList _ := []
  classOf _ := 0
  predicate _ _ := false
  arrayAt _ := none
  complexAt _ := none
  hashEql _ _ := 0

/-- `(subtypep 'foo 'integer env)` where `env` makes `foo` the type `s`. -/
def fooIsInteger (s : Sym) : Query :=
  .subtypep (.symbol (.user 0)) (.symbol .integer) [.type (.user 0) (.constant (.symbol s))]

def characterIsInteger : Query := .subtypep (.symbol .character) (.symbol .integer) []

theorem Image.mem_answers {w : World} {im : Image} {depth : ℕ} {q : Query} {a : Bool × Bool}
    (h : (im.answer w depth q).1 = .ok a) : (q, .ok a) ∈ (im.ask w depth q).answers := by
  unfold Image.ask
  dsimp only
  rw [h]
  exact List.mem_cons_self ..

theorem Image.takesOwnAnswers_of_isEmpty {w : World} {im : Image} {depth : ℕ} {q : Query}
    (h : (im.answer w depth q).2.hits.isEmpty = true) : im.TakesOwnAnswers w depth q := by
  intro x hx
  rw [List.isEmpty_iff.mp h] at hx
  cases hx

end TypeTags
