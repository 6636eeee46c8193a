import Ecl.BindingStackRefinement

/-! Runs of the binding stack. A bind that finds no room does not keep the bindings made:
ecl_bds_overflow returns the slot in use and not the next one. -/
namespace BindingStack

open ShallowBinding

variable {S V : Type} [DecidableEq S]

def Earlier (env : Env S V) : Op S V → Prop
  | .unwind1 => 0 ≤ env.top
  | .unwind ndx => -1 ≤ ndx ∧ ndx ≤ env.top
  | _ => True

def Room (objnull : V) (env : Env S V) : Op S V → Prop
  | .bind _ _ => env.top + 1 < env.limit
  | .push _ => env.top + 1 < env.limit
  | .progv vars values =>
    let n := (Dynamic.progvPairs env.constant objnull values.proper vars.items values.items).length
    0 < n → env.top + n < env.limit
  | _ => True

def Allowed (handlers : Env S V → Except Fault (Env S V)) (objnull : V) :
    Env S V → List (Op S V) → Prop
  | _, [] => True
  | env, op :: ops => Earlier env op ∧ Room objnull env op ∧
      ∀ env', step handlers objnull env op = .ok env' → Allowed handlers objnull env' ops

theorem step_spec (handlers : Env S V → Except Fault (Env S V)) (objnull : V) {env : Env S V}
    {d : Dynamic S V} (h : Represents env d) (op : Op S V) (hearlier : Earlier env op)
    (hroom : Room objnull env op) :
    ∃ env', step handlers objnull env op = .ok env' ∧ Represents env' (d.apply objnull op) := by
  cases op with
  | bind s v =>
    obtain ⟨env', hok, hrep, _⟩ := bdsBind_spec handlers h s v hroom
    exact ⟨env', hok, hrep⟩
  | push s => exact bdsPush_spec handlers h s hroom
  | set s v => exact ⟨_, rfl, bdsSet_spec h s v⟩
  | unwind1 =>
    have hdepth := top_eq_depth h
    have htop : 0 ≤ env.top := hearlier
    exact ⟨_, rfl, (bdsUnwind1_spec h (by omega)).1⟩
  | unwind ndx => exact ⟨_, rfl, bdsUnwind_spec h hearlier.1 hearlier.2⟩
  | progv vars values =>
    unfold Room at hroom
    rw [h.constant] at hroom
    obtain ⟨env', error, hok, hrep⟩ := progvLoop_spec handlers objnull vars.proper values.proper
      vars.items values.items h hroom
    refine ⟨env', ?_, hrep⟩
    rw [step, progv, hok]
    rfl

theorem run_spec (handlers : Env S V → Except Fault (Env S V)) (objnull : V)
    (ops : List (Op S V)) : ∀ {env : Env S V} {d : Dynamic S V}, Represents env d →
    Allowed handlers objnull env ops →
    ∃ env', run handlers objnull env ops = .ok env' ∧ Represents env' (d.run objnull ops) := by
  induction ops with
  | nil => exact fun h _ => ⟨_, rfl, h⟩
  | cons op ops ih =>
    intro env d h hallowed
    obtain ⟨hearlier, hroom, hnext⟩ := hallowed
    obtain ⟨env₁, hstep, hrep⟩ := step_spec handlers objnull h op hearlier hroom
    obtain ⟨env', hrun, hrep'⟩ := ih hrep (hnext env₁ hstep)
    refine ⟨env', ?_, hrep'⟩
    rw [run, List.foldlM_cons, hstep]
    exact hrun

def Above (objnull : V) (n : ℕ) (s : S) : Dynamic S V → List (Op S V) → Prop
  | _, [] => True
  | d, op :: ops =>
    n ≤ (d.apply objnull op).bindings.depth ∧
    (∀ v, op = .set s v →
      s ∈ (d.bindings.frames.take (d.bindings.depth - n)).map Prod.fst) ∧
    Above objnull n s (d.apply objnull op) ops

omit [DecidableEq S] in
theorem bindAll_unwind (pairs : List (S × V)) : ∀ {d : Dynamic S V} {n : ℕ},
    n ≤ d.bindings.depth → (d.bindAll pairs).unwind n = d.unwind n := by
  induction pairs with
  | nil => exact fun _ => rfl
  | cons p pairs ih =>
    intro d n h
    refine (ih (d := d.bind p.1 p.2) (Nat.le_succ_of_le h)).trans ?_
    unfold Dynamic.unwind Dynamic.bind
    rw [Bindings.unwind_bind h]

theorem apply_unwind_read (objnull : V) {d : Dynamic S V} {n : ℕ} {s : S} {op : Op S V}
    (hn : n ≤ d.bindings.depth) (hn' : n ≤ (d.apply objnull op).bindings.depth)
    (hset : ∀ v, op = .set s v →
      s ∈ (d.bindings.frames.take (d.bindings.depth - n)).map Prod.fst) :
    ((d.apply objnull op).unwind n).read s = (d.unwind n).read s := by
  have hagain : ∀ m, n ≤ (d.unwind m).bindings.depth →
      (d.unwind m).unwind n = d.unwind n := by
    intro m hm
    unfold Dynamic.unwind at *
    by_cases hle : m ≤ d.bindings.depth
    · rw [Bindings.depth_unwind m hle] at hm
      dsimp only
      rw [Bindings.unwind_unwind hle hm]
    · dsimp only
      rw [Bindings.unwind_of_le (Nat.le_of_not_le hle)]
  cases op with
  | bind t v => exact congrArg (Dynamic.read · s) (bindAll_unwind [(t, v)] hn)
  | push t => exact congrArg (Dynamic.read · s) (bindAll_unwind [(t, d.read t)] hn)
  | progv vars values => exact congrArg (Dynamic.read · s) (bindAll_unwind _ hn)
  | unwind1 | unwind ndx => exact congrArg (Dynamic.read · s) (hagain _ hn')
  | set t v =>
    change ((d.set t v).unwind n).read s = _
    unfold Dynamic.set
    cases hold : d.bindings.current t with
    | none =>
      have hts : s ≠ t := by
        rintro rfl
        obtain ⟨f, hf, hfs⟩ := List.mem_map.mp (hset v rfl)
        have hmem := List.mem_map.mpr ⟨f, List.mem_of_mem_take hf, hfs⟩
        exact lookup_ne_none hmem hold
      dsimp only [Dynamic.unwind, Dynamic.read]
      rw [Function.update_of_ne hts]
    | some old =>
      dsimp only [Dynamic.unwind, Dynamic.read]
      by_cases hts : s = t
      · subst hts
        rw [Bindings.unwind_assign_of_mem v (hset v rfl)]
      · rw [Bindings.current_unwind_assign_of_ne hts]

theorem run_unwind_read (objnull : V) {n : ℕ} {s : S} (ops : List (Op S V)) :
    ∀ {d : Dynamic S V}, n ≤ d.bindings.depth → Above objnull n s d ops →
    ((d.run objnull ops).unwind n).read s = (d.unwind n).read s := by
  induction ops with
  | nil => exact fun _ _ => rfl
  | cons op ops ih =>
    intro d hn habove
    obtain ⟨hn', hset, hrest⟩ := habove
    exact (ih hn' hrest).trans (apply_unwind_read objnull hn hn' hset)

theorem bdsBindInl_eq (handlers : Env S V → Except Fault (Env S V)) (env : Env S V) (s : S)
    (v : V) : bdsBindInl handlers env s v = bdsBind handlers env s v := by
  unfold bdsBindInl
  split
  case h_1 => rfl
  case h_2 index hin => rw [bdsBind, bdsIndex, hin]

theorem bdsPushInl_eq (handlers : Env S V → Except Fault (Env S V)) (env : Env S V) (s : S) :
    bdsPushInl handlers env s = bdsPush handlers env s := by
  unfold bdsPushInl
  split
  case h_1 => rfl
  case h_2 index hin => rw [bdsPush, bdsIndex, hin]

/-- While every record has room, each symbol reads as its innermost live binding or its global
value, and unwinding restores the bindings up to the index. -/
theorem bindings_disciplined (handlers : Env S V → Except Fault (Env S V)) (objnull : V)
    (env : Env S V) (d : Dynamic S V) (h : Represents env d) (ops : List (Op S V))
    (hallowed : Allowed handlers objnull env ops) :
    ∃ env', run handlers objnull env ops = .ok env' ∧
      (∀ s, bdsRead env' s = (d.run objnull ops).read s) ∧
      (∀ ndx, -1 ≤ ndx → ndx ≤ env'.top → ∀ s,
        bdsRead (bdsUnwind env' ndx) s = ((d.run objnull ops).unwind (ndx + 1).toNat).read s) ∧
      (∀ s, Above objnull d.bindings.depth s d ops → env.top ≤ env'.top →
        bdsRead (bdsUnwind env' env.top) s = bdsRead env s) ∧
      ∀ s v, bdsBindInl handlers env' s v = bdsBind handlers env' s v ∧
        bdsPushInl handlers env' s = bdsPush handlers env' s := by
  obtain ⟨env', hrun, hrep⟩ := run_spec handlers objnull ops h hallowed
  have hdepth := top_eq_depth h
  refine ⟨env', hrun, bdsRead_eq hrep,
    fun ndx hlow hhigh => bdsRead_eq (bdsUnwind_spec hrep hlow hhigh),
    fun s habove htop => ?_, fun s v => ⟨bdsBindInl_eq _ _ _ _, bdsPushInl_eq _ _ _⟩⟩
  rw [bdsRead_eq (bdsUnwind_spec hrep (by omega) htop), bdsRead_eq h,
    show (env.top + 1).toNat = d.bindings.depth by omega,
    run_unwind_read objnull ops (Nat.le_refl _) habove]
  unfold Dynamic.unwind
  rw [Bindings.unwind_of_le (Nat.le_refl _)]

/-- A thread as init_tl_bindings and bds_init leave it, with a stack of one record. -/
def small : Env ℕ ℕ where
  slots _ := ⟨none, none⟩
  top := -1
  limit := 1
  size := 9
  limitSize := 1
  blocks _ _ := none
  tlBindings := 0
  tlBindingsSize := 256
  nextBlock := 1
  binding _ := none
  value _ := 0
  constant _ := false
  lastVarIndex := 0
  reusedIndices := []
  margin := 4

def unbound : Dynamic ℕ ℕ := ⟨⟨[], fun _ => none⟩, fun _ => 0, fun _ => false⟩

theorem small_represents : Represents small unbound where
  current _ := rfl
  global := rfl
  constant := rfl
  stacked := rfl
  sound := by
    constructor
    · exact fun s t i h => absurd h (by simp [small])
    · exact fun s i h => absurd h (by simp [small])
    · exact fun i h => absurd h List.not_mem_nil
    · exact List.nodup_nil
    · exact fun _ _ _ => rfl
    · decide

theorem bindings_disciplined_small :
    ∃ env', run .ok 0 small [.bind 7 1, .set 7 2] = .ok env' ∧ bdsRead env' 7 = 2 ∧
      bdsRead (bdsUnwind env' (-1)) 7 = 0 := by
  have hallowed : Allowed .ok 0 small [.bind 7 1, .set 7 2] :=
    ⟨trivial, show small.top + 1 < small.limit by decide,
      fun _ _ => ⟨trivial, trivial, fun _ _ => trivial⟩⟩
  obtain ⟨env', hrun, hread, hunwind, _⟩ :=
    bindings_disciplined .ok 0 small unbound small_represents _ hallowed
  have htop : -1 ≤ env'.top := by
    obtain rfl := Except.ok.inj hrun
    decide
  exact ⟨env', hrun, (hread 7).trans (by decide),
    (hunwind (-1) (Int.le_refl _) htop 7).trans (by decide)⟩

/-- The second bind overflows and the restart continues it; unwinding it leaves its value. -/
theorem overflow_loses_record :
    ¬ ∀ (env : Env ℕ ℕ) (d : Dynamic ℕ ℕ) (ops : List (Op ℕ ℕ)) (env' : Env ℕ ℕ),
      Represents env d → run .ok 0 env ops = .ok env' →
        ∀ s, bdsRead env' s = (d.run 0 ops).read s := by
  intro hclaim
  have hread : (run .ok 0 small [.bind 7 1, .bind 8 2, .unwind 0]).toOption.map (bdsRead · 8) =
      some 2 := by decide
  cases hrun : run .ok 0 small [.bind 7 1, .bind 8 2, .unwind 0] with
  | error e => simp [hrun, Except.toOption] at hread
  | ok env' =>
    rw [hrun] at hread
    have hspec := hclaim small unbound _ env' small_represents hrun 8
    have hglobal : (unbound.run 0 [.bind 7 1, .bind 8 2, .unwind 0]).read 8 = 0 := by decide
    rw [hglobal] at hspec
    exact absurd (hspec.symm.trans (Option.some.inj hread)) (by decide)

end BindingStack
