import Ecl.ReadtableCopies

/-! Runs of operations on a readtable and on a copy of it: neither is seen in the other, except
through a dispatch table that both have in common. -/
namespace Readtables

open Characters

variable {F : Type} {dispatchReader : F} {ucd : Ucd} {s s' : Store F} {a b : ℕ}

structure SameLookups (ucd : Ucd) (a : ℕ) (s s' : Store F) : Prop where
  entries : ∀ c, readtableGet a c s' = readtableGet a c s
  functions : ∀ c subcode,
    getDispatchMacroCharacter ucd c subcode a s' = getDispatchMacroCharacter ucd c subcode a s

theorem sameLookups_of (hget : ∀ c, readtableGet a c s' = readtableGet a c s)
    (hdispatch : ∀ c d, (readtableGet a c s).table = some d → s'.dispatch d = s.dispatch d) :
    SameLookups ucd a s s' := by
  refine ⟨hget, fun c subcode => ?_⟩
  unfold getDispatchMacroCharacter
  rw [hget]
  split
  · rfl
  · next d hd => rw [hdispatch c d hd]

theorem SameLookups.trans {s'' : Store F} (h : SameLookups ucd a s s')
    (h' : SameLookups ucd a s' s'') : SameLookups ucd a s s'' :=
  ⟨fun c => (h'.entries c).trans (h.entries c),
    fun c subcode => (h'.functions c subcode).trans (h.functions c subcode)⟩

theorem SameLookups.refl (ucd : Ucd) (a : ℕ) (s : Store F) : SameLookups ucd a s s :=
  ⟨fun _ => rfl, fun _ _ => rfl⟩

section records

theorem get_modify {f : Readtable F → Readtable F} {rt : ℕ} (htable : ∀ r, (f r).table = r.table)
    (hhash : ∀ r, (f r).hash = r.hash) (p : ℕ) : ((s.modify rt f).readtables p).hash =
      (s.readtables p).hash ∧ ∀ c, readtableGet p c (s.modify rt f) = readtableGet p c s := by
  have hrecord : ((s.modify rt f).readtables p).hash = (s.readtables p).hash ∧
      ((s.modify rt f).readtables p).table = (s.readtables p).table := by
    by_cases hp : p = rt
    · subst p
      simp [Store.modify, htable, hhash]
    · simp [Store.modify, hp]
  refine ⟨hrecord.1, fun c => ?_⟩
  by_cases hc : c < rtabSize
  · rw [get_direct hc, get_direct hc, hrecord.2]
  · rw [get_hash (Nat.not_lt.mp hc), get_hash (Nat.not_lt.mp hc), hrecord.1]
    rfl

theorem modify_wellFormed (h : WellFormed s) {f : Readtable F → Readtable F} {rt : ℕ}
    (htable : ∀ r, (f r).table = r.table) (hhash : ∀ r, (f r).hash = r.hash) :
    WellFormed (s.modify rt f) := by
  have hsame : ∀ p, ((s.modify rt f).readtables p).hash = (s.readtables p).hash ∧
      ∀ c, readtableGet p c (s.modify rt f) = readtableGet p c s := get_modify htable hhash
  constructor
  case hashes =>
    intro p q k hp hq
    rw [(hsame p).1] at hp
    rw [(hsame q).1] at hq
    exact h.hashes p q k hp hq
  case tables =>
    intro p i q j d hp hq
    rw [(hsame p).2] at hp
    rw [(hsame q).2] at hq
    exact h.tables p i q j d hp hq
  case hashBound =>
    intro p k hp
    rw [(hsame p).1] at hp
    exact h.hashBound p k hp
  case tableBound =>
    intro p i d hp
    rw [(hsame p).2] at hp
    exact h.tableBound p i d hp

end records

section steps

def withTable (s : Store F) : Store F :=
  { s with
    dispatch := Function.update s.dispatch s.next fun _ => none
    next := s.next + 1 }

theorem withTable_fresh (h : WellFormed s) (syntaxType : Syntax) (macroFn : Option F) :
    Fresh ⟨syntaxType, macroFn, some s.next⟩ (withTable s) := by
  intro d hd
  obtain rfl := Option.some.inj hd
  refine ⟨Nat.lt_succ_self _, fun rt c hin => ?_⟩
  exact absurd (h.tableBound rt c _ hin) (Nat.lt_irrefl _)

theorem step_ok {op : Op F} (hcall : call dispatchReader ucd s op = .ok s') :
    step dispatchReader ucd s op = s' := by
  rw [step, hcall]

theorem unlessLocked_step {op : Op F} {rt : ℕ}
    (hcall : call dispatchReader ucd s op = unlessLocked rt s s') {P : Store F → Prop} (hs : P s)
    (hs' : P s') : P (step dispatchReader ucd s op) := by
  rw [step, hcall, unlessLocked]
  split
  · next t heq =>
    split at heq
    · cases heq
    · cases heq
      exact hs'
  · exact hs

theorem step_wellFormed (h : WellFormed s) (op : Op F) :
    WellFormed (step dispatchReader ucd s op) := by
  cases op with
  | setSyntaxFromChar toChr fromChr toRt fromRt =>
    have hcopied := copyEntry_spec (readtableGet fromRt fromChr s) s
    apply unlessLocked_step (P := WellFormed) rfl h
    exact set_wellFormed (h.grow hcopied.readtables hcopied.hashes hcopied.next)
      (hcopied.fresh h) toRt toChr
  | setMacroCharacter c function nonTerminating rt =>
    apply unlessLocked_step (P := WellFormed) rfl h
    exact set_wellFormed h (fun d hd => absurd hd (by simp)) rt c
  | makeDispatchMacroCharacter c nonTerminating rt =>
    apply unlessLocked_step (P := WellFormed) rfl h
    have hs' : WellFormed (withTable s) := h.grow rfl rfl (Nat.le_succ _)
    exact set_wellFormed hs' (withTable_fresh h _ _) rt c
  | setDispatchMacroCharacter c subcode function rt =>
    simp only [step, call, setDispatchMacroCharacter]
    split
    · next t heq =>
      split at heq
      · cases heq
      · split at heq
        · cases heq
        · cases heq
          exact h.grow rfl rfl (Nat.le_refl _)
    · exact h
  | readtableCaseSet rt mode =>
    apply unlessLocked_step (P := WellFormed) rfl h
    exact modify_wellFormed h (fun _ => rfl) fun _ => rfl
  | readtableLock rt yesno =>
    have hstep : step dispatchReader ucd s (.readtableLock rt yesno) =
      s.modify rt fun r => { r with locked := yesno } := rfl
    rw [hstep]
    apply modify_wellFormed h
    · exact fun _ => rfl
    · exact fun _ => rfl
  | copyReadtable source target => exact (copyReadtable_copied source target s).wellFormed h

def Applies (b : ℕ) : Op F → Prop
  | .setSyntaxFromChar _ _ toRt _ => toRt = b
  | .setMacroCharacter _ _ _ rt => rt = b
  | .makeDispatchMacroCharacter _ _ rt => rt = b
  | .setDispatchMacroCharacter _ _ _ rt => rt = b
  | .readtableCaseSet rt _ => rt = b
  | .readtableLock rt _ => rt = b
  | .copyReadtable _ target => target = some b

def KeepsApart (a : ℕ) (s : Store F) : Op F → Prop
  | .setDispatchMacroCharacter c _ _ rt => (s.readtables rt).locked = false → rtabSize ≤ c →
    ∀ d, (readtableGet rt c s).table = some d → (readtableGet a c s).table ≠ some d
  | _ => True

theorem set_apart (h : WellFormed s) (hab : a ≠ b) (c : ℕ) (e : Entry F) :
    SameLookups ucd a s (readtableSet b c e s) := by
  apply sameLookups_of
  · intro c'
    rw [get_set h, if_neg fun hboth => hab hboth.1]
  · exact fun _ _ _ => by rw [set_dispatch]

theorem grow_apart (h : WellFormed s) (hrt : s'.readtables = s.readtables)
    (hhash : s'.hashes = s.hashes) (hdispatch : ∀ d, d < s.next → s'.dispatch d = s.dispatch d) :
    SameLookups ucd a s s' := by
  apply sameLookups_of
  · intro c
    apply get_congr
    · rw [hrt]
    · exact fun k _ => by rw [hhash]
  · exact fun c d hd => hdispatch d (h.tableBound a c d hd)

theorem modify_apart {f : Readtable F → Readtable F} (htable : ∀ r, (f r).table = r.table)
    (hhash : ∀ r, (f r).hash = r.hash) : SameLookups ucd a s (s.modify b f) :=
  sameLookups_of (get_modify htable hhash a).2 fun _ _ _ => rfl

theorem step_apart (h : WellFormed s) (hab : a ≠ b) {op : Op F} (hop : Applies b op)
    (hapart : KeepsApart a s op) : SameLookups ucd a s (step dispatchReader ucd s op) := by
  have hrefl := SameLookups.refl ucd a s
  cases op with
  | setSyntaxFromChar toChr fromChr toRt fromRt =>
    have hcopied := copyEntry_spec (readtableGet fromRt fromChr s) s
    have hs' := h.grow hcopied.readtables hcopied.hashes hcopied.next
    obtain rfl : toRt = b := hop
    apply unlessLocked_step (P := SameLookups ucd a s) rfl hrefl
    exact (grow_apart h hcopied.readtables hcopied.hashes hcopied.dispatch).trans
      (set_apart hs' hab toChr _)
  | setMacroCharacter c function nonTerminating rt =>
    obtain rfl : rt = b := hop
    apply unlessLocked_step (P := SameLookups ucd a s) rfl hrefl
    exact set_apart h hab c _
  | makeDispatchMacroCharacter c nonTerminating rt =>
    obtain rfl : rt = b := hop
    have hs' : WellFormed (withTable s) := h.grow rfl rfl (Nat.le_succ _)
    apply unlessLocked_step (P := SameLookups ucd a s) rfl hrefl
    apply SameLookups.trans _ (set_apart hs' hab c _)
    apply grow_apart h
    · rfl
    · rfl
    · exact fun d hd => Function.update_of_ne (Nat.ne_of_lt hd) _ _
  | setDispatchMacroCharacter c subcode function rt =>
    obtain rfl : rt = b := hop
    simp only [step, call, setDispatchMacroCharacter]
    split
    · next t heq =>
      split at heq
      · cases heq
      · next hlocked =>
        split at heq
        · cases heq
        · next d hd =>
          cases heq
          apply sameLookups_of
          · exact fun c' => rfl
          · intro c' d' hd'
            have hne : d' ≠ d := by
              rintro rfl
              obtain ⟨rfl, hlow⟩ := h.tables a c' rt c d' hd' hd
              by_cases hc : c' < rtabSize
              · exact hab (hlow hc)
              · exact hapart (by simpa using hlocked) (Nat.not_lt.mp hc) d' hd hd'
            exact Function.update_of_ne hne _ _
    · exact hrefl
  | readtableCaseSet rt mode =>
    apply unlessLocked_step (P := SameLookups ucd a s) rfl hrefl
    exact modify_apart (fun _ => rfl) fun _ => rfl
  | readtableLock rt yesno =>
    have hstep : step dispatchReader ucd s (.readtableLock rt yesno) =
      s.modify rt fun r => { r with locked := yesno } := rfl
    rw [hstep]
    apply modify_apart
    · exact fun _ => rfl
    · exact fun _ => rfl
  | copyReadtable source target =>
    obtain rfl : target = some b := hop
    have hcopied := copyReadtable_copied source (some b) s
    apply sameLookups_of
    · exact hcopied.get h hab
    · exact fun c d hd => hcopied.dispatch d (h.tableBound a c d hd)

end steps

section runs

def Meets (dispatchReader : F) (ucd : Ucd) (C : Store F → Op F → Prop) : Store F → List (Op F) → Prop
  | _, [] => True
  | s, op :: ops => C s op ∧ Meets dispatchReader ucd C (step dispatchReader ucd s op) ops

theorem run_one (s : Store F) (op : Op F) :
    run dispatchReader ucd s [op] = step dispatchReader ucd s op := rfl

theorem run_wellFormed (ops : List (Op F)) : ∀ s : Store F, WellFormed s →
    WellFormed (run dispatchReader ucd s ops) := by
  induction ops with
  | nil => exact fun s h => h
  | cons op ops ih => exact fun s h => ih _ (step_wellFormed h op)

theorem run_apart (hab : a ≠ b) (ops : List (Op F)) : ∀ s : Store F, WellFormed s →
    (∀ op ∈ ops, Applies b op) → Meets dispatchReader ucd (KeepsApart a) s ops →
    SameLookups ucd a s (run dispatchReader ucd s ops) := by
  induction ops with
  | nil => exact fun s _ _ _ => SameLookups.refl ucd a s
  | cons op ops ih =>
    intro s h hops hapart
    have hone : SameLookups ucd a s (step dispatchReader ucd s op) :=
      step_apart h hab (hops op List.mem_cons_self) hapart.1
    exact hone.trans (ih _ (step_wellFormed h op) (fun o ho => hops o (List.mem_cons_of_mem _ ho))
      hapart.2)

theorem blank_wellFormed : WellFormed (blank : Store F) := by
  have hnone : ∀ rt c, (readtableGet rt c (blank : Store F)).table = none := by
    intro rt c
    by_cases hc : c < rtabSize
    · rw [get_direct hc]
      rfl
    · rw [get_hash (Nat.not_lt.mp hc)]
      rfl
  constructor
  case hashes => exact fun rt rt' k hk => absurd hk (by simp [blank])
  case tables => exact fun rt c rt' c' d hd => absurd (hd.symm.trans (hnone rt c)) (by simp)
  case hashBound => exact fun rt k hk => absurd hk (by simp [blank])
  case tableBound => exact fun rt c d hd => absurd (hd.symm.trans (hnone rt c)) (by simp)

/-- A readtable of any history is copied: what is then done to one of the two changes no lookup
in the other. -/
theorem copies_are_independent (before : List (Op F)) {s s₁ : Store F} {r c : ℕ}
    (hs : run dispatchReader ucd blank before = s) (hr : r < s.next)
    (hcopy : copyReadtable r none s = (c, s₁)) (ops : List (Op F)) :
    ((∀ op ∈ ops, Applies c op) → Meets dispatchReader ucd (KeepsApart r) s₁ ops →
      SameLookups ucd r s (run dispatchReader ucd s₁ ops)) ∧
    ((∀ op ∈ ops, Applies r op) → Meets dispatchReader ucd (KeepsApart c) s₁ ops →
      SameLookups ucd c s₁ (run dispatchReader ucd s₁ ops)) := by
  have h : WellFormed s := hs ▸ run_wellFormed before blank blank_wellFormed
  have hcopied := copyReadtable_copied r none s
  have hnew := (copyReadtable_new r s).1
  rw [hcopy] at hcopied hnew
  have h₁ := hcopied.wellFormed h
  have hne : r ≠ c := Nat.ne_of_lt (Nat.lt_of_lt_of_le hr hnew)
  have hcopying : SameLookups ucd r s s₁ :=
    sameLookups_of (hcopied.get h hne) fun i d hd => hcopied.dispatch d (h.tableBound r i d hd)
  constructor
  · exact fun hops hapart => hcopying.trans (run_apart hne ops s₁ h₁ hops hapart)
  · exact fun hops hapart => run_apart hne.symm ops s₁ h₁ hops hapart

theorem copyReadtable_unlocked (r : ℕ) (s : Store F) :
    ((copyReadtable r none s).2.readtables (copyReadtable r none s).1).locked = false := by
  unfold copyReadtable Store.modify
  simp only [Function.update_self]

theorem common_function_is_seen (h : WellFormed s) {r c ch d : ℕ} {s₁ : Store F} (hr : r < s.next)
    (hcopy : copyReadtable r none s = (c, s₁)) (hch : rtabSize ≤ ch)
    (htable : (readtableGet r ch s).table = some d) (subcode : ℕ) (function : Option F)
    (hdigit : ucd.digitp subcode 10 = none) :
    getDispatchMacroCharacter ucd ch subcode r (step dispatchReader ucd s₁
      (.setDispatchMacroCharacter ch subcode function c)) = .ok function := by
  have hcopied := copyReadtable_copied r none s
  have hnew := (copyReadtable_new r s).1
  have hunlocked := copyReadtable_unlocked r s
  rw [hcopy] at hcopied hnew hunlocked
  have hunlocked : (s₁.readtables c).locked = false := hunlocked
  have hne : r ≠ c := Nat.ne_of_lt (Nat.lt_of_lt_of_le hr hnew)
  have hthere : (readtableGet c ch s₁).table = some d := by rw [hcopied.high ch hch, htable]
  have hhere : (readtableGet r ch s₁).table = some d := by rw [hcopied.get h hne, htable]
  have hstep : step dispatchReader ucd s₁ (.setDispatchMacroCharacter ch subcode function c) =
      { s₁ with
        dispatch := Function.update s₁.dispatch d (enterFunction ucd subcode function (s₁.dispatch d)) } := by
    apply step_ok
    simp only [call, setDispatchMacroCharacter, hunlocked, Bool.false_eq_true, if_false]
    rw [hthere]
  have hget : (readtableGet r ch (step dispatchReader ucd s₁
      (.setDispatchMacroCharacter ch subcode function c))).table = some d := by
    rw [hstep]
    exact hhere
  unfold getDispatchMacroCharacter
  rw [hget]
  simp only [hdigit, Option.isSome_none, Bool.false_eq_true, if_false, hstep, Function.update_self,
    enterFunction]
  by_cases hother : subcode = otherCase ucd subcode
  · rw [← hother, Function.update_self]
  · rw [Function.update_of_ne hother, Function.update_self]

def caseless : Ucd := ⟨fun _ => ⟨4, 0⟩, fun _ => 0, fun _ => 255⟩

def twoDispatching : List (Op ℕ) :=
  [.makeDispatchMacroCharacter 36 false 0, .setDispatchMacroCharacter 36 97 (some 1) 0,
    .makeDispatchMacroCharacter 955 false 0, .setDispatchMacroCharacter 955 97 (some 1) 0]

/-- The copy's function of the first character changes, and the second is defined anew. -/
theorem copies_are_independent_twoDispatching : ∃ s c s₁,
    run 0 caseless blank twoDispatching = s ∧ copyReadtable 0 none s = (c, s₁) ∧
    SameLookups caseless 0 s (run 0 caseless s₁
      [.setDispatchMacroCharacter 36 97 (some 2) c, .setMacroCharacter 955 (some 3) true c]) := by
  refine ⟨_, _, _, rfl, (Prod.eta _).symm,
    (copies_are_independent twoDispatching rfl (by decide) (Prod.eta _).symm _).1 ?_ ?_⟩
  · intro op hop
    simp only [List.mem_cons, List.not_mem_nil, or_false] at hop
    rcases hop with rfl | rfl <;> rfl
  · exact ⟨fun _ hc => absurd hc (by decide), trivial, trivial⟩

/-- The function entered for the second character of the copy replaces that of the original. -/
theorem dispatch_table_is_common : ∃ s c s₁,
    run 0 caseless blank twoDispatching = s ∧ copyReadtable 0 none s = (c, s₁) ∧
    getDispatchMacroCharacter caseless 955 97 0 s = .ok (some 1) ∧
    getDispatchMacroCharacter caseless 955 97 0
      (run 0 caseless s₁ [.setDispatchMacroCharacter 955 97 (some 2) c]) = .ok (some 2) := by
  refine ⟨_, _, _, rfl, (Prod.eta _).symm, by rfl, ?_⟩
  have h : WellFormed (run 0 caseless blank twoDispatching) := run_wellFormed _ _ blank_wellFormed
  have htable : (readtableGet 0 955 (run 0 caseless blank twoDispatching)).table = some 2 := by rfl
  rw [run_one]
  exact common_function_is_seen h (by decide) (Prod.eta _).symm (by decide) htable 97 (some 2) rfl

end runs

end Readtables
