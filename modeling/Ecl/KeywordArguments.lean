import Mathlib.Algebra.Ring.Int.Defs
import Mathlib.Data.List.Count
import Mathlib.Data.List.TakeWhile

/-! Keyword arguments: OP_PUSHKEYS of src/c/interpreter.d with the code that ecl_make_lambda puts
behind it, and cl_parse_key of src/c/cmpaux.d. -/
namespace KeywordArguments

variable {α : Type*} [DecidableEq α]

structure Objects (α : Type*) where
  nil : α
  t : α
  allowOtherKeys : α
  symbolp : α → Bool
  t_ne_nil : t ≠ nil

inductive Refusal (α : Type*) where
  | oddKeys
  | unknownKeyword
  | keywordExpected (keyword : α)
  | unknown (keyword : α)
  deriving DecidableEq

variable (O : Objects α)

/-- The scan for one name. The count is a cl_index that wraps below zero; it is only compared with
zero, and lists are too short for it to come around. -/
def scanName (name : α) : List α → ℤ → Option α → ℤ × Option α
  | [], count, found | [_], count, found => (count, found)
  | key :: value :: frame, count, found =>
    if key = name then scanName name frame (count - 2) (found.or (some value))
    else scanName name frame count found

/-- A value and its flag above the stack, or the flag NIL alone. -/
def pushFound (found : Option α) (stack : List α) : List α :=
  match found with
  | some value => O.t :: value :: stack
  | none => O.nil :: stack

def pushNames (frame : List α) : List α → ℤ → List α → ℤ × List α
  | [], count, stack => (count, stack)
  | name :: names, count, stack =>
    let scanned := scanName name frame count none
    pushNames frame names scanned.1 (pushFound O scanned.2 stack)

/-- More :allow-other-keys after the first: up to another name. -/
def skipAllow : List α → ℤ → ℤ
  | [], count | [_], count => count
  | key :: _ :: frame, count =>
    if key ≠ O.allowOtherKeys then count else skipAllow frame (count - 2)

def searchAllow : List α → α → ℤ → α × ℤ
  | [], aok, count | [_], aok, count => (aok, count)
  | key :: value :: frame, aok, count =>
    if key = O.allowOtherKeys then (value, skipAllow O frame (count - 2))
    else searchAllow frame aok count

/-- The instruction, on the arguments that are left of the frame. -/
def opPushkeys (aok : α) (names frame stack : List α) : Except (Refusal α) (List α) :=
  if frame.length % 2 = 1 then .error .oddKeys
  else
    let pushed := pushNames O frame names frame.length stack
    if pushed.1 ≠ 0 ∧ aok = O.nil then
      let searched := searchAllow O frame aok pushed.1
      if searched.2 ≠ 0 ∧ searched.1 = O.nil then .error .unknownKeyword else .ok pushed.2
    else .ok pushed.2

/-- The list that ecl_make_lambda conses up from the names of the parameters. -/
def namesList (keys : List α) : List α := keys.foldl (fun names name => name :: names) []

/-- OP_POP and c_default for each parameter: its value where there is one, and the stack. -/
def bindKeys : List α → List α → List (Option α) × List α
  | [], stack => ([], stack)
  | _ :: _, [] => ([], [])
  | _ :: keys, flag :: stack =>
    if flag = O.nil then
      let bound := bindKeys keys stack
      (none :: bound.1, bound.2)
    else
      match stack with
      | value :: stack =>
        let bound := bindKeys keys stack
        (some value :: bound.1, bound.2)
      | [] => ([], [])

def interpretKeys (keys : List α) (allow : Bool) (frame : List α) :
    Except (Refusal α) (List (Option α)) :=
  (opPushkeys O (if allow then O.t else O.nil) (namesList keys) frame []).map fun stack =>
    (bindKeys O keys stack).1

abbrev Vars (α : Type*) := List (α × Bool)

/-- The loop over the keys. None where no key is the keyword. -/
def storeKey (keyword value : α) : List α → Vars α → Option (Vars α)
  | key :: keys, var :: vars =>
    if key = keyword then some ((if var.2 then var else (value, true)) :: vars)
    else (storeKey keyword value keys vars).map (var :: ·)
  | _, _ => none

structure ParseState (α : Type*) where
  vars : Vars α
  rest : List α
  suppliedAllowOtherKeys : Option α
  unknownKeyword : Option α

def parsePair (keys : List α) (keyword value : α) (st : ParseState α) : ParseState α :=
  let rest := st.rest ++ [keyword, value]
  match storeKey keyword value keys st.vars with
  | some vars => { st with vars := vars, rest := rest }
  | none =>
    if keyword = O.allowOtherKeys then
      { st with rest := rest, suppliedAllowOtherKeys := st.suppliedAllowOtherKeys.or (some value) }
    else { st with rest := rest, unknownKeyword := st.unknownKeyword.or (some keyword) }

/-- The loop over the arguments, and how many it leaves. -/
def parsePairs (keys : List α) : List α → ParseState α → Except (Refusal α) (ParseState α × ℕ)
  | [], st => .ok (st, 0)
  | [_], st => .ok (st, 1)
  | keyword :: value :: args, st =>
    if ¬ O.symbolp keyword then .error (.keywordExpected keyword)
    else parsePairs keys args (parsePair O keys keyword value st)

/-- The vars, and what a rest parameter is given. -/
def clParseKey (keys : List α) (allow : Bool) (args : List α) :
    Except (Refusal α) (Vars α × List α) := do
  let start : Vars α := keys.map fun _ => (O.nil, false)
  if args = [] then return (start, [])
  let (st, left) ← parsePairs O keys args ⟨start, [], none, none⟩
  if left ≠ 0 then .error .oddKeys
  else
    match st.unknownKeyword with
    | none => return (st.vars, st.rest)
    | some keyword =>
      if allow = false ∧ (st.suppliedAllowOtherKeys = some O.nil ∨ st.suppliedAllowOtherKeys = none) ∧
          ¬ (keys.zip st.vars).any fun kv => kv.1 = O.allowOtherKeys ∧ kv.2.2 ∧ kv.2.1 ≠ O.nil
      then .error (.unknown keyword)
      else return (st.vars, st.rest)

def bindings (vars : Vars α) : List (Option α) :=
  vars.map fun var => if var.2 then some var.1 else none

def compiledKeys (keys : List α) (allow : Bool) (args : List α) :
    Except (Refusal α) (List (Option α)) :=
  (clParseKey O keys allow args).map fun parsed => bindings parsed.1

def pairs : List α → List (α × α)
  | [] | [_] => []
  | key :: value :: args => (key, value) :: pairs args

def Rejected (keys : List α) (allow : Bool) (args : List α) : Prop :=
  args.length % 2 = 1 ∨
    allow = false ∧ (∃ p ∈ pairs args, p.1 ∉ keys ∧ p.1 ≠ O.allowOtherKeys) ∧
      ∀ v, (pairs args).lookup O.allowOtherKeys = some v → v = O.nil

structure Meets (keys : List α) (allow : Bool) (args : List α)
    (result : Except (Refusal α) (List (Option α))) : Prop where
  rejected : Rejected O keys allow args → ∃ e, result = .error e
  bound : ¬ Rejected O keys allow args →
    result = .ok (keys.map fun key => (pairs args).lookup key)

section
variable {O} {frame : List α}

omit [DecidableEq α] in
theorem pairs_length (args : List α) :
    2 * (pairs args).length + args.length % 2 = args.length := by
  induction args using pairs.induct with
  | case1 | case2 => rfl
  | case3 key value args ih =>
    rw [pairs, List.length_cons, List.length_cons, List.length_cons]
    omega

theorem lookup_other {key name : α} (value : α) (h : name ≠ key) (P : List (α × α)) :
    ((key, value) :: P).lookup name = P.lookup name := by
  have happend : ([(key, value)] ++ P).lookup name =
      (List.lookup name [(key, value)]).or (P.lookup name) := List.lookup_append
  rw [List.lookup_singleton, beq_eq_false_iff_ne.mpr h] at happend
  exact happend

theorem scanName_eq (name : α) (frame : List α) (count : ℤ) (found : Option α) :
    scanName name frame count found =
      (count - 2 * ((pairs frame).countP fun p => p.1 = name),
        found.or ((pairs frame).lookup name)) := by
  induction frame using pairs.induct generalizing count found with
  | case1 | case2 => simp [scanName, pairs]
  | case3 key value frame ih =>
    rw [scanName, pairs]
    by_cases hkey : key = name
    · subst hkey
      rw [if_pos rfl, ih, List.countP_cons_of_pos (by simp), List.lookup_cons_self, Option.or_assoc]
      refine Prod.ext ?_ rfl
      push_cast
      omega
    · rw [if_neg hkey, ih, List.countP_cons_of_neg (by simp [hkey]),
        lookup_other value (Ne.symm hkey)]

/-- How often arguments and parameters have the same name. -/
def matched (names : List α) : List (α × α) → ℕ
  | [] => 0
  | p :: P => names.count p.1 + matched names P

theorem matched_cons (name : α) (names : List α) (P : List (α × α)) :
    matched (name :: names) P = P.countP (fun p => p.1 = name) + matched names P := by
  induction P with
  | nil => rfl
  | cons p P ih =>
    rw [matched, ih, List.count_cons, List.countP_cons, matched]
    have hname : (if (name == p.1) = true then 1 else 0) =
        if decide (p.1 = name) = true then 1 else 0 := by
      by_cases hp : p.1 = name
      · simp [hp]
      · simp [hp, Ne.symm hp]
    omega

theorem pushNames_eq (names : List α) (count : ℤ) (stack : List α) :
    pushNames O frame names count stack =
      (count - 2 * matched names (pairs frame),
        names.foldl (fun stack name => pushFound O ((pairs frame).lookup name) stack) stack) := by
  induction names generalizing count stack with
  | nil =>
    have hnone : matched [] (pairs frame) = 0 := by
      induction pairs frame with
      | nil => rfl
      | cons p P ih => rw [matched, ih]; rfl
    rw [hnone]
    exact Prod.ext (Int.sub_zero count).symm rfl
  | cons name names ih =>
    rw [pushNames, ih, scanName_eq, matched_cons]
    refine Prod.ext ?_ ?_
    · show count - 2 * _ - 2 * _ = _
      omega
    · rw [List.foldl_cons, Option.none_or]

omit [DecidableEq α] in
theorem namesList_eq (keys : List α) : namesList keys = keys.reverse := by
  rw [namesList, ← List.foldr_reverse]
  exact List.foldr_cons_nil

theorem bindKeys_pushed (f : α → Option α) (keys stack : List α) :
    bindKeys O keys ((namesList keys).foldl (fun stack name => pushFound O (f name) stack) stack) =
      (keys.map f, stack) := by
  rw [namesList_eq, List.foldl_reverse]
  induction keys with
  | nil => cases stack <;> rfl
  | cons key keys ih =>
    rw [List.foldr_cons]
    cases hkey : f key with
    | none =>
      rw [pushFound, bindKeys.eq_def]
      simp only [if_pos, ih, List.map_cons, hkey]
    | some value =>
      rw [pushFound, bindKeys.eq_def]
      simp only [if_neg O.t_ne_nil, ih, List.map_cons, hkey]

/-- The arguments whose name no parameter has. -/
def undeclared (keys : List α) (P : List (α × α)) : ℕ := P.countP fun p => p.1 ∉ keys

def surplus (keys : List α) : List (α × α) → ℕ
  | [] => 0
  | p :: P => (keys.count p.1 - 1) + surplus keys P

/-- The first :allow-other-keys and those that follow it at once. -/
def leading (O : Objects α) (P : List (α × α)) : ℕ :=
  ((P.dropWhile fun p => p.1 ≠ O.allowOtherKeys).takeWhile fun p => p.1 = O.allowOtherKeys).length

theorem unmatched (keys : List α) (P : List (α × α)) :
    (P.length : ℤ) - matched keys P = undeclared keys P - surplus keys P := by
  induction P with
  | nil => rfl
  | cons p P ih =>
    rw [undeclared] at ih ⊢
    rw [matched, surplus, List.length_cons, List.countP_cons]
    have hcount : (1 : ℤ) - keys.count p.1 =
        (if p.1 ∉ keys then 1 else 0 : ℕ) - (keys.count p.1 - 1 : ℕ) := by
      by_cases hp : p.1 ∈ keys
      · have hpos := List.count_pos_iff.mpr hp
        rw [if_neg (not_not.mpr hp)]
        omega
      · rw [if_pos hp, List.count_eq_zero_of_not_mem hp]
        rfl
    simp only [decide_eq_true_eq] at hcount ⊢
    omega

theorem skipAllow_eq (frame : List α) (count : ℤ) : skipAllow O frame count =
    count - 2 * ((pairs frame).takeWhile fun p => p.1 = O.allowOtherKeys).length := by
  induction frame using pairs.induct generalizing count with
  | case1 | case2 => simp [skipAllow, pairs]
  | case3 key value frame ih =>
    rw [skipAllow, pairs]
    by_cases hkey : key = O.allowOtherKeys
    · rw [if_neg (not_not.mpr hkey), ih, List.takeWhile_cons_of_pos (by simp [hkey])]
      push_cast [List.length_cons]
      omega
    · rw [if_pos hkey, List.takeWhile_cons_of_neg (by simp [hkey])]
      simp

theorem searchAllow_eq (frame : List α) (aok : α) (count : ℤ) : searchAllow O frame aok count =
    (((pairs frame).lookup O.allowOtherKeys).getD aok, count - 2 * leading O (pairs frame)) := by
  induction frame using pairs.induct generalizing count with
  | case1 | case2 => simp [searchAllow, pairs, leading]
  | case3 key value frame ih =>
    rw [searchAllow, pairs]
    by_cases hkey : key = O.allowOtherKeys
    · rw [if_pos hkey, skipAllow_eq, hkey, List.lookup_cons_self, leading,
        List.dropWhile_cons_of_neg (by simp), List.takeWhile_cons_of_pos (by simp)]
      refine Prod.ext rfl ?_
      push_cast [List.length_cons]
      omega
    · rw [if_neg hkey, ih, leading, leading, List.dropWhile_cons_of_pos (by simp [hkey]),
        lookup_other value (Ne.symm hkey)]

/-- What the interpreter does, told by the numbers of arguments. -/
theorem interpretKeys_eq (keys : List α) (allow : Bool) (frame : List α) :
    interpretKeys O keys allow frame =
      if frame.length % 2 = 1 then .error .oddKeys
      else if allow = false ∧ undeclared keys (pairs frame) ≠ surplus keys (pairs frame) ∧
        undeclared keys (pairs frame) ≠ surplus keys (pairs frame) + leading O (pairs frame) ∧
        ∀ v, (pairs frame).lookup O.allowOtherKeys = some v → v = O.nil
      then .error .unknownKeyword
      else .ok (keys.map fun key => (pairs frame).lookup key) := by
  rw [interpretKeys, opPushkeys, pushNames_eq]
  by_cases hodd : frame.length % 2 = 1
  · rw [if_pos hodd, if_pos hodd]
    rfl
  rw [if_neg hodd, if_neg hodd]
  have hlength := pairs_length frame
  have hunmatched := unmatched keys (pairs frame)
  have hcount : matched (namesList keys) (pairs frame) = matched keys (pairs frame) := by
    rw [namesList_eq]
    induction pairs frame with
    | nil => rfl
    | cons p P ih => rw [matched, matched, ih, List.count_reverse]
  have hbound : ∀ stack, (bindKeys O keys ((namesList keys).foldl
      (fun stack name => pushFound O ((pairs frame).lookup name) stack) stack)).1 =
        keys.map fun key => (pairs frame).lookup key :=
    fun stack => congrArg Prod.fst (bindKeys_pushed _ keys stack)
  rw [hcount]
  have hzero : (frame.length : ℤ) - 2 * matched keys (pairs frame) = 0 ↔
      undeclared keys (pairs frame) = surplus keys (pairs frame) := by omega
  have hrest : (frame.length : ℤ) - 2 * matched keys (pairs frame) -
      2 * leading O (pairs frame) = 0 ↔ undeclared keys (pairs frame) =
        surplus keys (pairs frame) + leading O (pairs frame) := by omega
  have hnil : ((pairs frame).lookup O.allowOtherKeys).getD O.nil = O.nil ↔
      ∀ v, (pairs frame).lookup O.allowOtherKeys = some v → v = O.nil := by
    cases (pairs frame).lookup O.allowOtherKeys <;> simp
  cases allow with
  | true => simp [O.t_ne_nil, Except.map, hbound]
  | false =>
    simp only [searchAllow_eq, Bool.false_eq_true, if_false, and_true, ne_eq, hzero, hrest, hnil,
      true_and]
    by_cases hmatched : undeclared keys (pairs frame) = surplus keys (pairs frame)
    · simp [hmatched, Except.map, hbound]
    · rw [if_pos hmatched, apply_ite (Except.map _)]
      simp only [hmatched, not_false_eq_true, true_and, Except.map, hbound]

def varsOf (O : Objects α) (P : List (α × α)) : List α → List α → Vars α
  | _, [] => []
  | seen, key :: keys =>
    (if key ∈ seen then (O.nil, false)
      else ((P.lookup key).map fun value => (value, true)).getD (O.nil, false)) ::
      varsOf O P (key :: seen) keys

theorem lookup_snoc (P : List (α × α)) (key value name : α) :
    (P ++ [(key, value)]).lookup name =
      (P.lookup name).or (if name = key then some value else none) := by
  rw [List.lookup_append, List.lookup_singleton]
  simp only [beq_iff_eq]

theorem varsOf_snoc {P : List (α × α)} {key : α} (value : α) {keys seen : List α}
    (hseen : key ∈ keys → key ∈ seen) :
    varsOf O (P ++ [(key, value)]) seen keys = varsOf O P seen keys := by
  induction keys generalizing seen with
  | nil => rfl
  | cons name keys ih =>
    rw [varsOf, varsOf,
      ih fun hkey => List.mem_cons_of_mem _ (hseen (List.mem_cons_of_mem _ hkey))]
    by_cases hname : name ∈ seen
    · rw [if_pos hname, if_pos hname]
    · have hne : name ≠ key := by
        rintro rfl
        exact hname (hseen List.mem_cons_self)
      rw [lookup_snoc, if_neg hne, Option.or_none]

theorem storeKey_varsOf (P : List (α × α)) (key value : α) {seen : List α} (hseen : key ∉ seen)
    (keys : List α) : storeKey key value keys (varsOf O P seen keys) =
      if key ∈ keys then some (varsOf O (P ++ [(key, value)]) seen keys) else none := by
  induction keys generalizing seen with
  | nil => rfl
  | cons name keys ih =>
    rw [varsOf, storeKey]
    by_cases hname : name = key
    · subst hname
      rw [if_pos rfl, if_pos List.mem_cons_self, varsOf, varsOf_snoc value fun _ => List.mem_cons_self,
        if_neg hseen, if_neg hseen, lookup_snoc, if_pos rfl]
      cases P.lookup name <;> rfl
    · rw [if_neg hname, ih (by simp [hseen, Ne.symm hname]), varsOf, lookup_snoc, if_neg hname,
        Option.or_none]
      by_cases hkey : key ∈ keys
      · rw [if_pos hkey, if_pos (List.mem_cons_of_mem _ hkey)]
        rfl
      · have hcons : key ∉ name :: keys := by simp [hkey, Ne.symm hname]
        rw [if_neg hkey, if_neg hcons]
        rfl

/-- The state of the loop after some arguments. -/
def stateOf (O : Objects α) (keys : List α) (P : List (α × α)) : ParseState α :=
  ⟨varsOf O P [] keys, P.flatMap fun p => [p.1, p.2],
    if O.allowOtherKeys ∈ keys then none else P.lookup O.allowOtherKeys,
    (P.find? fun p => p.1 ∉ keys ∧ p.1 ≠ O.allowOtherKeys).map Prod.fst⟩

theorem parsePair_stateOf (keys : List α) (P : List (α × α)) (key value : α) :
    parsePair O keys key value (stateOf O keys P) = stateOf O keys (P ++ [(key, value)]) := by
  have hrest : (P ++ [(key, value)]).flatMap (fun p => [p.1, p.2]) =
      P.flatMap (fun p => [p.1, p.2]) ++ [key, value] := List.flatMap_append
  rw [parsePair, stateOf, storeKey_varsOf P key value List.not_mem_nil]
  rw [stateOf, hrest, lookup_snoc, List.find?_append]
  by_cases hkey : key ∈ keys
  · have hunknown : ([(key, value)] : List (α × α)).find?
        (fun p => p.1 ∉ keys ∧ p.1 ≠ O.allowOtherKeys) = none := by simp [hkey]
    have hallow : O.allowOtherKeys ∉ keys → O.allowOtherKeys ≠ key := fun h he => h (he ▸ hkey)
    simp only [if_pos hkey, hunknown, Option.or_none, ParseState.mk.injEq, true_and, and_true]
    split
    · rfl
    · next hnot => rw [if_neg (hallow hnot), Option.or_none]
  · rw [if_neg hkey, varsOf_snoc value fun h => absurd h hkey]
    by_cases hallow : key = O.allowOtherKeys
    · subst hallow
      simp [hkey]
    · simp only [if_neg hallow, if_neg (Ne.symm hallow), Option.or_none, ParseState.mk.injEq,
        true_and]
      cases P.find? fun p => p.1 ∉ keys ∧ p.1 ≠ O.allowOtherKeys <;> simp [hkey, hallow]

theorem parsePairs_stateOf {keys args : List α} (hsym : ∀ p ∈ pairs args, O.symbolp p.1)
    (P : List (α × α)) : parsePairs O keys args (stateOf O keys P) =
      .ok (stateOf O keys (P ++ pairs args), args.length % 2) := by
  induction args using pairs.induct generalizing P with
  | case1 | case2 => rw [parsePairs, pairs, List.append_nil]; rfl
  | case3 key value args ih =>
    rw [pairs] at hsym
    obtain ⟨hkey, hsym⟩ := List.forall_mem_cons.mp hsym
    rw [parsePairs, if_neg (not_not.mpr hkey), parsePair_stateOf, ih hsym, pairs,
      ← List.append_cons, List.length_cons, List.length_cons, Nat.add_assoc, Nat.add_mod_right]

theorem any_seen {P : List (α × α)} {keys seen : List α} (hseen : O.allowOtherKeys ∈ seen) :
    ∀ kv ∈ keys.zip (varsOf O P seen keys), kv.1 = O.allowOtherKeys → kv.2.2 = false := by
  induction keys generalizing seen with
  | nil => exact fun kv hkv => absurd hkv List.not_mem_nil
  | cons name keys ih =>
    rw [varsOf, List.zip_cons_cons, List.forall_mem_cons]
    refine ⟨?_, ih (List.mem_cons_of_mem _ hseen)⟩
    rintro rfl
    rw [if_pos hseen]

/-- :allow-other-keys as a parameter: the value that is looked at is the leftmost one. -/
theorem any_varsOf {P : List (α × α)} {keys seen : List α} (hseen : O.allowOtherKeys ∉ seen) :
    ((keys.zip (varsOf O P seen keys)).any fun kv =>
        kv.1 = O.allowOtherKeys ∧ kv.2.2 ∧ kv.2.1 ≠ O.nil) ↔
      O.allowOtherKeys ∈ keys ∧ ∃ v, P.lookup O.allowOtherKeys = some v ∧ v ≠ O.nil := by
  induction keys generalizing seen with
  | nil => simp
  | cons name keys ih =>
    rw [varsOf, List.zip_cons_cons, List.any_cons, Bool.or_eq_true]
    by_cases hname : name = O.allowOtherKeys
    · subst hname
      have htail : ¬ ((keys.zip (varsOf O P (O.allowOtherKeys :: seen) keys)).any fun kv =>
          kv.1 = O.allowOtherKeys ∧ kv.2.2 ∧ kv.2.1 ≠ O.nil) := by
        rw [List.any_eq_true]
        rintro ⟨kv, hkv, htrue⟩
        obtain ⟨hkey, hflag, -⟩ := of_decide_eq_true htrue
        rw [any_seen List.mem_cons_self kv hkv hkey] at hflag
        cases hflag
      rw [or_iff_left htail, if_neg hseen, and_iff_right List.mem_cons_self]
      cases P.lookup O.allowOtherKeys <;> simp
    · rw [ih (by simp [hseen, Ne.symm hname])]
      simp [hname, Ne.symm hname]

/-- A name that several parameters have is bound for the first of them only. -/
theorem bindings_varsOf {P : List (α × α)} {keys seen : List α} :
    bindings (varsOf O P seen keys) = (keys.map fun key => P.lookup key) ↔
      ∀ key ∈ keys, key ∈ seen ∨ 2 ≤ keys.count key → P.lookup key = none := by
  induction keys generalizing seen with
  | nil => simp [varsOf, bindings]
  | cons name keys ih =>
    have hhead : bindings [if name ∈ seen then (O.nil, false)
        else ((P.lookup name).map fun value => (value, true)).getD (O.nil, false)] =
          [P.lookup name] ↔ (name ∈ seen → P.lookup name = none) := by
      by_cases hname : name ∈ seen
      · cases hlookup : P.lookup name <;> simp [bindings, hname]
      · cases hlookup : P.lookup name <;> simp [bindings, hname]
    have hsplit : bindings (varsOf O P seen (name :: keys)) =
        ((name :: keys).map fun key => P.lookup key) ↔
          (name ∈ seen → P.lookup name = none) ∧
            bindings (varsOf O P (name :: seen) keys) = keys.map fun key => P.lookup key := by
      rw [← hhead, varsOf, bindings, List.map_cons, List.map_cons, List.cons_eq_cons, bindings,
        bindings, List.map_singleton, List.cons_eq_cons, and_iff_left rfl]
    rw [hsplit, ih]
    constructor
    · rintro ⟨hname, hkeys⟩ key hkey hor
      have htwice : name ∈ keys → P.lookup name = none := fun h =>
        hkeys name h (Or.inl List.mem_cons_self)
      rcases List.mem_cons.mp hkey with rfl | hkey
      · rcases hor with hseen | hcount
        · exact hname hseen
        · rw [List.count_cons_self] at hcount
          exact htwice (List.count_pos_iff.mp (by omega))
      · by_cases hne : key = name
        · exact hne ▸ htwice (hne ▸ hkey)
        · rw [List.count_cons_of_ne (Ne.symm hne)] at hor
          exact hkeys key hkey (hor.imp_left fun h => List.mem_cons_of_mem _ h)
    · intro h
      refine ⟨fun hseen => h name List.mem_cons_self (Or.inl hseen), fun key hkey hor => ?_⟩
      refine h key (List.mem_cons_of_mem _ hkey) ?_
      have hmono : keys.count key ≤ (name :: keys).count key := List.count_le_count_cons
      rcases hor with hseen | hcount
      · rcases List.mem_cons.mp hseen with rfl | hseen
        · have hpos := List.count_pos_iff.mpr hkey
          rw [List.count_cons_self]
          exact Or.inr (by omega)
        · exact Or.inl hseen
      · exact Or.inr (hcount.trans hmono)

omit [DecidableEq α] in
theorem flatMap_pairs {args : List α} (heven : args.length % 2 = 0) :
    ((pairs args).flatMap fun p => [p.1, p.2]) = args := by
  induction args using pairs.induct with
  | case1 => rfl
  | case2 => cases heven
  | case3 key value args ih =>
    rw [List.length_cons, List.length_cons, Nat.add_assoc, Nat.add_mod_right] at heven
    rw [pairs, List.flatMap_cons, ih heven]
    rfl

/-- What compiled code does. -/
theorem clParseKey_eq {keys args : List α} (hsym : ∀ p ∈ pairs args, O.symbolp p.1)
    (allow : Bool) : (args.length % 2 = 1 → clParseKey O keys allow args = .error .oddKeys) ∧
      (args.length % 2 = 0 → Rejected O keys allow args →
        ∃ e, clParseKey O keys allow args = .error e) ∧
      (args.length % 2 = 0 → ¬ Rejected O keys allow args →
        clParseKey O keys allow args = .ok (varsOf O (pairs args) [] keys, args)) := by
  have hstart : ∀ seen, varsOf O [] seen keys = keys.map fun _ => (O.nil, false) := by
    intro seen
    induction keys generalizing seen with
    | nil => rfl
    | cons name keys ih =>
      rw [varsOf, ih, List.map_cons]
      split <;> rfl
  have hinit : (⟨keys.map fun _ => (O.nil, false), [], none, none⟩ : ParseState α) =
      stateOf O keys [] := by
    rw [stateOf, hstart]
    split <;> rfl
  by_cases hnil : args = []
  · subst hnil
    have hnot : ¬ Rejected O keys allow [] := by simp [Rejected, pairs]
    refine ⟨fun hodd => (by cases hodd), fun _ hrejected => absurd hrejected hnot, fun _ _ => ?_⟩
    rw [clParseKey, if_pos rfl, ← hstart []]
    rfl
  have hrun : clParseKey O keys allow args = if args.length % 2 ≠ 0 then .error .oddKeys
      else
        match (stateOf O keys (pairs args)).unknownKeyword with
        | none => .ok (varsOf O (pairs args) [] keys, (pairs args).flatMap fun p => [p.1, p.2])
        | some keyword =>
          if allow = false ∧ ((stateOf O keys (pairs args)).suppliedAllowOtherKeys = some O.nil ∨
              (stateOf O keys (pairs args)).suppliedAllowOtherKeys = none) ∧
            ¬ (keys.zip (varsOf O (pairs args) [] keys)).any fun kv =>
              kv.1 = O.allowOtherKeys ∧ kv.2.2 ∧ kv.2.1 ≠ O.nil
          then .error (.unknown keyword)
          else .ok (varsOf O (pairs args) [] keys, (pairs args).flatMap fun p => [p.1, p.2]) := by
    rw [clParseKey, if_neg hnil, hinit, parsePairs_stateOf hsym, List.nil_append]
    rfl
  have hodd : args.length % 2 = 0 → ¬ args.length % 2 ≠ 0 := fun h hne => hne h
  refine ⟨fun h => ?_, fun heven hrejected => ?_, fun heven hnot => ?_⟩
  · rw [hrun, if_pos (by omega)]
  · obtain ⟨hallow, ⟨p, hp, hunknown⟩, hvalue⟩ := hrejected.resolve_left (by omega)
    have hfind : ∃ q, (pairs args).find? (fun p => p.1 ∉ keys ∧ p.1 ≠ O.allowOtherKeys) = some q := by
      rw [← Option.isSome_iff_exists, List.find?_isSome]
      exact ⟨p, hp, decide_eq_true hunknown⟩
    obtain ⟨q, hq⟩ := hfind
    have hsupplied : (stateOf O keys (pairs args)).suppliedAllowOtherKeys = some O.nil ∨
        (stateOf O keys (pairs args)).suppliedAllowOtherKeys = none := by
      rw [stateOf]
      split
      · exact Or.inr rfl
      · cases hlookup : (pairs args).lookup O.allowOtherKeys with
        | none => exact Or.inr rfl
        | some v => exact Or.inl (congrArg some (hvalue v hlookup))
    refine ⟨.unknown q.1, ?_⟩
    rw [hrun, if_neg (hodd heven), stateOf, hq]
    exact if_pos ⟨hallow, hsupplied, mt (any_varsOf List.not_mem_nil).mp fun h =>
      h.2.elim fun v hv => hv.2 (hvalue v hv.1)⟩
  · rw [hrun, if_neg (hodd heven), flatMap_pairs heven]
    cases hfind : (pairs args).find? fun p => p.1 ∉ keys ∧ p.1 ≠ O.allowOtherKeys with
    | none => rw [stateOf, hfind]; rfl
    | some q =>
      have hunknown : q.1 ∉ keys ∧ q.1 ≠ O.allowOtherKeys := by simpa using List.find?_some hfind
      rw [stateOf, hfind]
      refine if_neg ?_
      rintro ⟨hallow, hsupplied, hany⟩
      refine hnot (Or.inr ⟨hallow, ⟨q, List.mem_of_find?_eq_some hfind, hunknown⟩, fun v hv => ?_⟩)
      by_cases hkey : O.allowOtherKeys ∈ keys
      · rw [any_varsOf List.not_mem_nil] at hany
        by_contra hne
        exact hany ⟨hkey, v, hv, hne⟩
      · rw [if_neg hkey, hv] at hsupplied
        exact Option.some.inj (hsupplied.resolve_right (Option.some_ne_none v))

/-- Parameters of one name count several times in the interpreter, and only the first of them is
bound in compiled code. A repeated :allow-other-keys is taken off the count where it follows the
first, and once more than it should be where it is a parameter. -/
structure Fair (O : Objects α) (keys : List α) (allow : Bool) (args : List α) : Prop where
  counted : args.length % 2 = 0 → Rejected O keys allow args →
    undeclared keys (pairs args) ≠ surplus keys (pairs args) ∧
      undeclared keys (pairs args) ≠ surplus keys (pairs args) + leading O (pairs args)
  single : ¬ Rejected O keys allow args →
    ∀ key ∈ keys, 2 ≤ keys.count key → (pairs args).lookup key = none
  together : ¬ Rejected O keys allow args → allow = false → O.allowOtherKeys ∉ keys →
    (pairs args).lookup O.allowOtherKeys = some O.nil →
      leading O (pairs args) = (pairs args).countP fun p => p.1 = O.allowOtherKeys

theorem compiled_meets_iff {keys args : List α} (hsym : ∀ p ∈ pairs args, O.symbolp p.1)
    (allow : Bool) : Meets O keys allow args (compiledKeys O keys allow args) ↔
      (¬ Rejected O keys allow args →
        ∀ key ∈ keys, 2 ≤ keys.count key → (pairs args).lookup key = none) := by
  obtain ⟨hodd, hrejected, hbound⟩ := @clParseKey_eq _ _ O keys args hsym allow
  have hok : ¬ Rejected O keys allow args → compiledKeys O keys allow args =
      .ok (bindings (varsOf O (pairs args) [] keys)) := by
    intro hnot
    have heven := (Nat.mod_two_eq_zero_or_one args.length).resolve_right fun h => hnot (Or.inl h)
    rw [compiledKeys, hbound heven hnot]
    rfl
  have hsingle : (bindings (varsOf O (pairs args) [] keys) =
      keys.map fun key => (pairs args).lookup key) ↔
        ∀ key ∈ keys, 2 ≤ keys.count key → (pairs args).lookup key = none := by
    simp [bindings_varsOf]
  constructor
  · intro h hnot
    have heq := h.bound hnot
    rw [hok hnot] at heq
    exact hsingle.mp (Except.ok.inj heq)
  · intro h
    refine ⟨fun hrej => ?_, fun hnot => by rw [hok hnot, hsingle.mpr (h hnot)]⟩
    rcases Nat.mod_two_eq_zero_or_one args.length with heven | hone
    · obtain ⟨e, he⟩ := hrejected heven hrej
      exact ⟨e, by rw [compiledKeys, he]; rfl⟩
    · exact ⟨.oddKeys, by rw [compiledKeys, hodd hone]; rfl⟩

theorem interpreted_meets_iff (keys : List α) (allow : Bool) (args : List α) :
    Meets O keys allow args (interpretKeys O keys allow args) ↔
      (args.length % 2 = 0 → Rejected O keys allow args →
        undeclared keys (pairs args) ≠ surplus keys (pairs args) ∧
          undeclared keys (pairs args) ≠ surplus keys (pairs args) + leading O (pairs args)) ∧
      (¬ Rejected O keys allow args → allow = false →
        (∀ v, (pairs args).lookup O.allowOtherKeys = some v → v = O.nil) →
          undeclared keys (pairs args) = surplus keys (pairs args) ∨
            undeclared keys (pairs args) = surplus keys (pairs args) + leading O (pairs args)) := by
  rw [interpretKeys_eq]
  rcases Nat.mod_two_eq_zero_or_one args.length with heven | hodd
  · have hnotodd : ¬ args.length % 2 = 1 := by omega
    rw [if_neg hnotodd]
    constructor
    · intro h
      refine ⟨fun _ hrejected => ?_, fun hnot hallow hvalue => ?_⟩
      · obtain ⟨e, he⟩ := h.rejected hrejected
        split at he
        · next hcond => exact ⟨hcond.2.1, hcond.2.2.1⟩
        · cases he
      · have hok := h.bound hnot
        split at hok
        · cases hok
        · next hcond =>
          by_contra hneither
          exact hcond ⟨hallow, fun he => hneither (Or.inl he), fun he => hneither (Or.inr he),
            hvalue⟩
    · rintro ⟨hcounted, haccepted⟩
      refine ⟨fun hrejected => ?_, fun hnot => if_neg ?_⟩
      · obtain ⟨hallow, -, hvalue⟩ := hrejected.resolve_left hnotodd
        obtain ⟨hne, hleading⟩ := hcounted heven hrejected
        exact ⟨.unknownKeyword, if_pos ⟨hallow, hne, hleading, hvalue⟩⟩
      · rintro ⟨hallow, hne, hleading, hvalue⟩
        exact (haccepted hnot hallow hvalue).elim hne hleading
  · rw [if_pos hodd]
    have hrejected : Rejected O keys allow args := Or.inl hodd
    constructor
    · exact fun _ => ⟨fun heven => by omega, fun hnot => absurd hrejected hnot⟩
    · exact fun _ => ⟨fun _ => ⟨.oddKeys, rfl⟩, fun hnot => absurd hrejected hnot⟩

theorem surplus_eq_zero {keys : List α} {P : List (α × α)}
    (h : ∀ key ∈ keys, 2 ≤ keys.count key → P.lookup key = none) : surplus keys P = 0 := by
  have hmem : ∀ p ∈ P, keys.count p.1 - 1 = 0 := by
    intro p hp
    by_contra hpos
    have hkey : p.1 ∈ keys := List.count_pos_iff.mp (by omega)
    have hnone := List.lookup_eq_none_iff.mp (h p.1 hkey (by omega)) p hp
    simp at hnone
  clear h
  induction P with
  | nil => rfl
  | cons p P ih =>
    obtain ⟨hp, hP⟩ := List.forall_mem_cons.mp hmem
    rw [surplus, hp, ih hP]

theorem undeclared_eq {keys : List α} {P : List (α × α)}
    (h : ∀ p ∈ P, p.1 ∉ keys → p.1 = O.allowOtherKeys) : undeclared keys P =
      if O.allowOtherKeys ∈ keys then 0 else P.countP fun p => p.1 = O.allowOtherKeys := by
  rw [undeclared]
  split
  · next hkey =>
    refine List.countP_eq_zero.mpr fun p hp hnot => ?_
    have hnot := of_decide_eq_true hnot
    exact hnot (h p hp hnot ▸ hkey)
  · next hkey =>
    refine List.countP_congr fun p hp => ?_
    rw [decide_eq_true_eq, decide_eq_true_eq]
    exact ⟨h p hp, fun he => he ▸ hkey⟩

/-- The two agree with what is meant exactly on fair arguments. -/
theorem keywords_agree_iff {keys args : List α} (hsym : ∀ p ∈ pairs args, O.symbolp p.1)
    (allow : Bool) : Meets O keys allow args (interpretKeys O keys allow args) ∧
      Meets O keys allow args (compiledKeys O keys allow args) ↔ Fair O keys allow args := by
  rw [interpreted_meets_iff, compiled_meets_iff hsym]
  have haccepted : ¬ Rejected O keys allow args → allow = false →
      (∀ v, (pairs args).lookup O.allowOtherKeys = some v → v = O.nil) →
        undeclared keys (pairs args) = if O.allowOtherKeys ∈ keys then 0
          else (pairs args).countP fun p => p.1 = O.allowOtherKeys := by
    intro hnot hallow hvalue
    refine undeclared_eq fun p hp hkey => ?_
    by_contra hne
    exact hnot (Or.inr ⟨hallow, ⟨p, hp, hkey, hne⟩, hvalue⟩)
  constructor
  · rintro ⟨⟨hcounted, hrest⟩, hsingle⟩
    refine ⟨hcounted, hsingle, fun hnot hallow hkey hnil => ?_⟩
    have hvalue : ∀ v, (pairs args).lookup O.allowOtherKeys = some v → v = O.nil := by
      intro v hv
      exact Option.some.inj (hv.symm.trans hnil)
    have hor := hrest hnot hallow hvalue
    rw [haccepted hnot hallow hvalue, if_neg hkey, surplus_eq_zero (hsingle hnot), Nat.zero_add]
      at hor
    refine (hor.resolve_left fun hzero => ?_).symm
    have hnone : (pairs args).lookup O.allowOtherKeys = none := by
      refine List.lookup_eq_none_iff.mpr fun p hp => ?_
      have hne := List.countP_eq_zero.mp hzero p hp
      simpa using fun he : O.allowOtherKeys = p.1 => hne (decide_eq_true he.symm)
    rw [hnil] at hnone
    cases hnone
  · intro h
    refine ⟨⟨h.counted, fun hnot hallow hvalue => ?_⟩, h.single⟩
    rw [haccepted hnot hallow hvalue, surplus_eq_zero (h.single hnot), Nat.zero_add]
    split
    · exact Or.inl rfl
    · next hkey =>
      cases hlookup : (pairs args).lookup O.allowOtherKeys with
      | none =>
        left
        refine List.countP_eq_zero.mpr fun p hp he => ?_
        have hne := List.lookup_eq_none_iff.mp hlookup p hp
        simp [of_decide_eq_true he] at hne
      | some v =>
        right
        rw [hvalue v hlookup] at hlookup
        exact (h.together hnot hallow hkey hlookup).symm

end

def numbered : Objects ℕ := ⟨0, 1, 2, fun _ => true, by decide⟩

theorem numbered_agree_iff : (∀ p ∈ pairs [3, 4], numbered.symbolp p.1) ∧
    (Meets numbered [3] false [3, 4] (interpretKeys numbered [3] false [3, 4]) ∧
      Meets numbered [3] false [3, 4] (compiledKeys numbered [3] false [3, 4]) ↔
        Fair numbered [3] false [3, 4]) :=
  ⟨fun _ _ => rfl, keywords_agree_iff (fun _ _ => rfl) false⟩

/-- Two :allow-other-keys with a declared name between them are refused, and an unknown name is
accepted where :allow-other-keys is a parameter that is given NIL. -/
theorem numbered_disagree :
    ¬ Meets numbered [3] false [2, 0, 3, 4, 2, 0]
        (interpretKeys numbered [3] false [2, 0, 3, 4, 2, 0]) ∧
      ¬ Meets numbered [2] false [2, 0, 5, 4]
        (interpretKeys numbered [2] false [2, 0, 5, 4]) := by
  constructor
  · intro h
    have hnot : ¬ Rejected numbered [3] false [2, 0, 3, 4, 2, 0] := by
      simp [Rejected, pairs, numbered]
    have hrefused : interpretKeys numbered [3] false [2, 0, 3, 4, 2, 0] =
        .error .unknownKeyword := by decide
    have hbound := h.bound hnot
    rw [hrefused] at hbound
    cases hbound
  · intro h
    have hrejected : Rejected numbered [2] false [2, 0, 5, 4] := by
      simp [Rejected, pairs, numbered]
    have haccepted : interpretKeys numbered [2] false [2, 0, 5, 4] = .ok [some 0] := by decide
    obtain ⟨e, he⟩ := h.rejected hrejected
    rw [haccepted] at he
    cases he

end KeywordArguments
