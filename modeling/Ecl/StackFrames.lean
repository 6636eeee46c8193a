import Mathlib.Data.List.Basic

/-! The data stack and its frames, from src/c/stacks.d. An index into the stack stands for a
pointer. A frame that has been closed is no longer in the list of frames. -/
namespace StackFrames

variable {α : Type}

/-- env->run_stack. -/
structure RunStack (α : Type) where
  cells : ℕ → α
  top : ℕ
  limit : ℕ
  large : 2 ≤ limit

def write (cells : ℕ → α) (start : ℕ) (os : List α) : ℕ → α :=
  fun k => if start ≤ k then os[k - start]?.getD (cells k) else cells k

/-- The loop of ecl_data_stack_push_values, with ecl_data_stack_grow in it. -/
def growPast (p limit : ℕ) (h : 2 ≤ limit) : ℕ :=
  if p < limit then limit else growPast p (limit + limit / 2) (by omega)
termination_by p + 1 - limit
decreasing_by omega

theorem growPast_spec (p limit : ℕ) (h : 2 ≤ limit) :
    p < growPast p limit h ∧ 2 ≤ growPast p limit h := by
  fun_induction growPast p limit h with
  | case1 limit h hp => exact ⟨hp, h⟩
  | case2 limit h hp ih => exact ih

namespace RunStack

variable (s : RunStack α)

/-- ecl_data_stack_set_limit, to a larger size. The cells are copied. -/
def grow (more : ℕ) : RunStack α :=
  { s with limit := s.limit + more, large := Nat.le_add_right_of_le s.large }

def push (o : α) : RunStack α where
  cells := write s.cells s.top [o]
  top := s.top + 1
  limit := if s.top < s.limit then s.limit else s.limit + s.limit / 2
  large := by
    have := s.large
    split <;> omega

def pushValues (os : List α) : RunStack α where
  cells := write s.cells s.top os
  top := s.top + os.length
  limit := growPast (s.top + os.length) s.limit s.large
  large := (growPast_spec _ _ s.large).2

/-- The stack part of ecl_stack_frame_open. -/
def reserve (size : ℕ) : RunStack α where
  cells := s.cells
  top := s.top + size
  limit := if size ≠ 0 ∧ s.limit - s.top < size then s.limit + size else s.limit
  large := by
    have := s.large
    split <;> omega

def setIndex (ndx : ℕ) : RunStack α := { s with top := ndx }

end RunStack

structure Frame where
  base : ℕ
  size : ℕ
  sp : ℕ
  deriving DecidableEq

def multipleValuesLimit : ℕ := 64

/-- None is an internal error. -/
def framePush (s : RunStack α) (f : Frame) (o : α) : Option (RunStack α × Frame) :=
  if f.sp < f.base + f.size then
    some ({ s with cells := write s.cells f.sp [o] }, { f with sp := f.sp + 1 })
  else if f.sp = s.top then some (s.push o, { f with sp := f.sp + 1, size := f.size + 1 })
  else none

def framePop (s : RunStack α) (f : Frame) : Option (α × RunStack α × Frame) :=
  if f.sp ≤ f.base then none
  else if f.sp = s.top then
    some (s.cells (s.top - 1), s.setIndex (s.top - 1), { f with sp := f.sp - 1, size := f.size - 1 })
  else some (s.cells (f.sp - 1), s, { f with sp := f.sp - 1 })

def framePushValues (s : RunStack α) (f : Frame) (os : List α) : Option (RunStack α × Frame) :=
  let valueIndex := f.sp + os.length
  if valueIndex ≤ f.base + f.size then
    some ({ s with cells := write s.cells f.sp os }, { f with sp := valueIndex })
  else if f.sp = s.top then
    some (s.pushValues os, { f with sp := valueIndex, size := valueIndex - f.base })
  else none

structure Values (α : Type) where
  value : ℕ → α
  count : ℕ

def Values.toList (v : Values α) : List α := (List.range v.count).map v.value

/-- The loop of the values of a frame whose end is not the stack top, from the last one down. -/
def readDown (cells : ℕ → α) (base : ℕ) : ℕ → (ℕ → α) → α → (ℕ → α) × α
  | 0, value, result => (value, result)
  | n + 1, value, _ =>
    readDown cells base n (fun k => if k = n then cells (base + n) else value k) (cells (base + n))

def framePopValues (nil : α) (s : RunStack α) (f : Frame) (v : Values α) :
    Option (α × Values α × RunStack α × Frame) :=
  let n := (f.sp - f.base) % multipleValuesLimit
  if f.sp = s.top then
    if s.top < n then none
    else
      let value := fun k => if k < n then s.cells (s.top - n + k) else v.value k
      some (value 0, ⟨value, n⟩, s.setIndex (s.top - n), { f with sp := f.sp - n, size := f.size - n })
  else
    let read := readDown s.cells f.base n (fun k => if k = 0 then nil else v.value k) nil
    -- The loop has left -1 in n, and this is subtracted from sp.
    some (read.2, ⟨read.1, n⟩, s, { f with sp := f.sp + 1 })

structure Env (α : Type) where
  stack : RunStack α
  values : Values α
  frames : List Frame

/-- A frame is named by how many frames are newer. The values are set by whatever runs between the
operations. -/
inductive Op (α : Type) where
  | grow (more : ℕ)
  | setValues (os : List α)
  | openFrame (size : ℕ)
  | closeFrame
  | push (i : ℕ) (o : α)
  | pop (i : ℕ)
  | pushValues (i : ℕ)
  | popValues (i : ℕ)
  deriving DecidableEq

def step (nil : α) (e : Env α) : Op α → Option (Env α × Option α)
  | .grow more => some ({ e with stack := e.stack.grow more }, none)
  | .setValues os => some ({ e with values := ⟨write e.values.value 0 os, os.length⟩ }, none)
  | .openFrame size =>
    some ({ e with
      stack := e.stack.reserve size
      frames := ⟨e.stack.top, size, e.stack.top⟩ :: e.frames }, none)
  | .closeFrame =>
    match e.frames with
    | [] => none
    | f :: frames => some ({ e with stack := e.stack.setIndex f.base, frames := frames }, none)
  | .push i o => do
    let f ← e.frames[i]?
    let (s, f) ← framePush e.stack f o
    return ({ e with stack := s, frames := e.frames.set i f }, none)
  | .pop i => do
    let f ← e.frames[i]?
    let (o, s, f) ← framePop e.stack f
    return ({ e with stack := s, frames := e.frames.set i f }, some o)
  | .pushValues i => do
    let f ← e.frames[i]?
    let (s, f) ← framePushValues e.stack f e.values.toList
    return ({ e with stack := s, frames := e.frames.set i f }, none)
  | .popValues i => do
    let f ← e.frames[i]?
    let (o, v, s, f) ← framePopValues nil e.stack f e.values
    return (⟨s, v, e.frames.set i f⟩, some o)

def run (nil : α) : Env α → List (Op α) → Option (Env α × List (Option α))
  | e, [] => some (e, [])
  | e, op :: ops => do
    let (e, out) ← step nil e op
    let (e, outs) ← run nil e ops
    return (e, out :: outs)

structure Stacks (α : Type) where
  owned : List (List α)
  values : List α
  deriving DecidableEq

/-- The operations on lists. As many values are taken as can be delivered: the size of the stack
up to a multiple of the limit. -/
def Stacks.step (nil : α) (a : Stacks α) : Op α → Option (Stacks α × Option α)
  | .grow _ => some (a, none)
  | .setValues os => some ({ a with values := os }, none)
  | .openFrame _ => some ({ a with owned := [] :: a.owned }, none)
  | .closeFrame =>
    match a.owned with
    | [] => none
    | _ :: owned => some ({ a with owned := owned }, none)
  | .push i o => do
    let l ← a.owned[i]?
    return ({ a with owned := a.owned.set i (l ++ [o]) }, none)
  | .pop i => do
    let l ← a.owned[i]?
    let o ← l.getLast?
    return ({ a with owned := a.owned.set i l.dropLast }, some o)
  | .pushValues i => do
    let l ← a.owned[i]?
    return ({ a with owned := a.owned.set i (l ++ a.values) }, none)
  | .popValues i => do
    let l ← a.owned[i]?
    let kept := l.length - l.length % multipleValuesLimit
    return (⟨a.owned.set i (l.take kept), l.drop kept⟩, some ((l.drop kept).headD nil))

def Stacks.run (nil : α) : Stacks α → List (Op α) → Option (Stacks α × List (Option α))
  | a, [] => some (a, [])
  | a, op :: ops => do
    let (a, out) ← a.step nil op
    let (a, outs) ← a.run nil ops
    return (a, out :: outs)

def contents (cells : ℕ → α) (f : Frame) : List α :=
  (List.range (f.sp - f.base)).map fun k => cells (f.base + k)

def Env.owned (e : Env α) : Stacks α :=
  ⟨e.frames.map (contents e.stack.cells), e.values.toList⟩

section
variable {cells cells' : ℕ → α} {start k : ℕ} {os : List α} {f f' : Frame}

theorem write_outside (h : k < start ∨ start + os.length ≤ k) : write cells start os k = cells k := by
  rw [write]
  split
  · rw [List.getElem?_eq_none (by omega)]
    rfl
  · rfl

theorem write_inside (h : k < os.length) : write cells start os (start + k) = os[k] := by
  rw [write, if_pos (Nat.le_add_right _ _), Nat.add_sub_cancel_left, List.getElem?_eq_getElem h]
  rfl

theorem length_contents (cells : ℕ → α) (f : Frame) : (contents cells f).length = f.sp - f.base := by
  rw [contents, List.length_map, List.length_range]

theorem getElem_contents (h : k < (contents cells f).length) :
    (contents cells f)[k] = cells (f.base + k) := by
  simp only [contents, List.getElem_map, List.getElem_range]

theorem contents_congr (h : ∀ k, f.base ≤ k → k < f.sp → cells' k = cells k) :
    contents cells' f = contents cells f := by
  refine List.map_congr_left fun k hk => h _ (Nat.le_add_right _ _) ?_
  have := List.mem_range.mp hk
  omega

theorem contents_write (hbase : f'.base = f.base) (hsp : f'.sp = f.sp + os.length)
    (hle : f.base ≤ f.sp) : contents (write cells f.sp os) f' = contents cells f ++ os := by
  refine List.ext_getElem ?_ fun k hk hk' => ?_
  · rw [List.length_append, length_contents, length_contents]
    omega
  · rw [getElem_contents, hbase]
    rw [length_contents, hsp, hbase] at hk
    by_cases hold : k < f.sp - f.base
    · rw [List.getElem_append_left (by rw [length_contents]; exact hold), getElem_contents,
        write_outside (by omega)]
    · have hk'' : f.base + k = f.sp + (k - (f.sp - f.base)) := by omega
      rw [List.getElem_append_right (by rw [length_contents]; omega), hk'',
        write_inside (by omega)]
      congr 1
      rw [length_contents]

theorem contents_last (h : f.base + 1 ≤ f.sp) :
    (contents cells f).getLast? = some (cells (f.sp - 1)) := by
  rw [List.getLast?_eq_getElem?, length_contents, List.getElem?_eq_getElem
    (by rw [length_contents]; omega), getElem_contents]
  congr 2
  omega

theorem contents_take {n : ℕ} (hbase : f'.base = f.base) (hsp : f'.sp = f.sp - n) :
    contents cells f' = (contents cells f).take (f.sp - f.base - n) := by
  refine List.ext_getElem ?_ fun k hk hk' => ?_
  · rw [List.length_take, length_contents, length_contents]
    omega
  · rw [List.getElem_take, getElem_contents, getElem_contents, hbase]

theorem contents_drop {n : ℕ} (hle : f.base + n ≤ f.sp) :
    (List.range n).map (fun k => cells (f.sp - n + k)) =
      (contents cells f).drop (f.sp - f.base - n) := by
  refine List.ext_getElem ?_ fun k hk hk' => ?_
  · rw [List.length_map, List.length_range, List.length_drop, length_contents]
    omega
  · rw [List.getElem_map, List.getElem_range, List.getElem_drop, getElem_contents]
    congr 1
    omega

end

def Tiled : ℕ → List Frame → Prop
  | _, [] => True
  | top, f :: frames =>
    f.base ≤ f.sp ∧ f.sp ≤ f.base + f.size ∧ f.base + f.size = top ∧ Tiled f.base frames

section
variable {cells cells' : ℕ → α} {top i : ℕ} {frames : List Frame} {f f' : Frame}

theorem Tiled.mem (h : Tiled top frames) (hf : f ∈ frames) :
    f.base ≤ f.sp ∧ f.sp ≤ f.base + f.size ∧ f.base + f.size ≤ top := by
  induction frames generalizing top with
  | nil => cases hf
  | cons g frames ih =>
    obtain ⟨hbase, hsp, rfl, htail⟩ := h
    rcases List.mem_cons.mp hf with rfl | hf
    · exact ⟨hbase, hsp, Nat.le_refl _⟩
    · obtain ⟨hfbase, hfsp, hend⟩ := ih htail hf
      exact ⟨hfbase, hfsp, Nat.le_trans hend (Nat.le_add_right _ _)⟩

theorem Tiled.set (h : Tiled top frames) (hf : frames[i]? = some f) (hbase : f'.base = f.base)
    (hsize : f'.size = f.size) (hlow : f'.base ≤ f'.sp) (hhigh : f'.sp ≤ f'.base + f'.size) :
    Tiled top (frames.set i f') := by
  induction frames generalizing top i with
  | nil => exact h
  | cons g frames ih =>
    obtain ⟨hgbase, hgsp, hend, htail⟩ := h
    cases i with
    | zero =>
      obtain rfl : g = f := Option.some.inj hf
      refine ⟨hlow, hhigh, ?_, ?_⟩
      · rw [hbase, hsize, hend]
      · rw [hbase]
        exact htail
    | succ i => exact ⟨hgbase, hgsp, hend, ih htail hf⟩

theorem Tiled.resize (h : Tiled top frames) (hf : frames[0]? = some f) (hbase : f'.base = f.base)
    (hlow : f'.base ≤ f'.sp) (hhigh : f'.sp ≤ f'.base + f'.size) :
    Tiled (f'.base + f'.size) (frames.set 0 f') := by
  cases frames with
  | nil => cases hf
  | cons g frames =>
    obtain rfl : g = f := Option.some.inj hf
    obtain ⟨-, -, -, htail⟩ := h
    refine ⟨hlow, hhigh, rfl, ?_⟩
    rw [hbase]
    exact htail

/-- Stores behind the stack pointer of a frame, inside of it or beyond the newest frame, are not
seen in the other frames. -/
theorem contents_set (h : Tiled top frames) (hf : frames[i]? = some f)
    (hcells : ∀ k, k < f.sp ∨ i ≠ 0 ∧ f.base + f.size ≤ k → cells' k = cells k) :
    (frames.set i f').map (contents cells') =
      (frames.map (contents cells)).set i (contents cells' f') := by
  induction frames generalizing top i with
  | nil => rfl
  | cons g frames ih =>
    obtain ⟨hgbase, hgsp, hend, htail⟩ := h
    cases i with
    | zero =>
      obtain rfl : g = f := Option.some.inj hf
      rw [List.set_cons_zero, List.map_cons, List.map_cons, List.set_cons_zero]
      congr 1
      refine List.map_congr_left fun old hold => contents_congr fun k _ hk => hcells k (Or.inl ?_)
      have := htail.mem hold
      omega
    | succ i =>
      rw [List.set_cons_succ, List.map_cons, List.map_cons, List.set_cons_succ]
      have hmem : f ∈ frames := List.mem_of_getElem? hf
      congr 1
      · refine contents_congr fun k hk _ => hcells k (Or.inr ⟨Nat.succ_ne_zero i, ?_⟩)
        exact Nat.le_trans (htail.mem hmem).2.2 hk
      · refine ih htail hf fun k hk => hcells k (hk.imp_right fun h => ⟨Nat.succ_ne_zero i, h.2⟩)

end

structure Pushed (s : RunStack α) (f : Frame) (os : List α) (s' : RunStack α) (f' : Frame) :
    Prop where
  cells : s'.cells = write s.cells f.sp os
  base : f'.base = f.base
  sp : f'.sp = f.sp + os.length
  place : f'.sp ≤ f.base + f.size ∧ f'.size = f.size ∧ s'.top = s.top ∨
    f.base + f.size < f'.sp ∧ f.sp = s.top ∧ f'.sp = f'.base + f'.size ∧ s'.top = f'.sp

structure Popped (s : RunStack α) (f : Frame) (n : ℕ) (s' : RunStack α) (f' : Frame) : Prop where
  cells : s'.cells = s.cells
  enough : f.base + n ≤ f.sp
  base : f'.base = f.base
  sp : f'.sp = f.sp - n
  place : f.sp ≠ s.top ∧ f'.size = f.size ∧ s'.top = s.top ∨
    f.sp = s.top ∧ f'.size = f.size - n ∧ s'.top = s.top - n

section
variable {s s' : RunStack α} {f f' : Frame} {i : ℕ} {frames : List Frame} {os : List α} {n : ℕ}

theorem framePush_pushed {o : α} (h : framePush s f o = some (s', f'))
    (hsp : f.sp ≤ f.base + f.size) : Pushed s f [o] s' f' := by
  rw [framePush] at h
  split at h
  next hroom =>
    cases h
    exact ⟨rfl, rfl, rfl, Or.inl ⟨hroom, rfl, rfl⟩⟩
  next hroom =>
  split at h
  next htop =>
    cases h
    refine ⟨by rw [htop]; rfl, rfl, rfl, Or.inr ⟨?_, htop, ?_, ?_⟩⟩
    · exact Nat.lt_succ_of_le (Nat.le_of_not_lt hroom)
    · show f.sp + 1 = f.base + (f.size + 1)
      omega
    · rw [htop]
      rfl
  · cases h

theorem framePushValues_pushed (h : framePushValues s f os = some (s', f'))
    (_hbase : f.base ≤ f.sp) :
    Pushed s f os s' f' := by
  rw [framePushValues] at h
  split at h
  next hroom =>
    cases h
    exact ⟨rfl, rfl, rfl, Or.inl ⟨hroom, rfl, rfl⟩⟩
  next hroom =>
  split at h
  next htop =>
    cases h
    refine ⟨by rw [htop]; rfl, rfl, rfl, Or.inr ⟨Nat.lt_of_not_le hroom, htop, ?_, ?_⟩⟩
    · show f.sp + os.length = f.base + (f.sp + os.length - f.base)
      omega
    · rw [htop]
      rfl
  · cases h

theorem framePop_popped {o : α} (h : framePop s f = some (o, s', f')) :
    Popped s f 1 s' f' ∧ o = s.cells (f.sp - 1) := by
  rw [framePop] at h
  split at h
  · cases h
  next hsome =>
  have henough : f.base + 1 ≤ f.sp := Nat.lt_of_not_le hsome
  split at h
  next htop =>
    cases h
    exact ⟨⟨rfl, henough, rfl, rfl, Or.inr ⟨htop, rfl, rfl⟩⟩, by rw [htop]⟩
  next htop =>
    cases h
    exact ⟨⟨rfl, henough, rfl, rfl, Or.inl ⟨htop, rfl, rfl⟩⟩, rfl⟩

theorem Pushed.owned (h : Pushed s f os s' f') (hframes : Tiled s.top frames)
    (hf : frames[i]? = some f) (hinner : f.sp = s.top → i = 0 ∨ os = []) :
    Tiled s'.top (frames.set i f') ∧ (frames.set i f').map (contents s'.cells) =
      (frames.map (contents s.cells)).set i (contents s.cells f ++ os) := by
  obtain ⟨hbase, hsp, -⟩ := hframes.mem (List.mem_of_getElem? hf)
  have hlow : f'.base ≤ f'.sp := by
    rw [h.base, h.sp]
    exact Nat.le_trans hbase (Nat.le_add_right _ _)
  have hnew : contents s'.cells f' = contents s.cells f ++ os := by
    rw [h.cells]
    exact contents_write h.base h.sp hbase
  rw [← hnew]
  rcases h.place with ⟨hroom, hsize, htop⟩ | ⟨hroom, hend, hlast, htop⟩
  · refine ⟨?_, contents_set hframes hf fun k hk => ?_⟩
    · rw [htop]
      refine hframes.set hf h.base hsize hlow ?_
      rw [h.base, hsize]
      exact hroom
    · rw [h.cells]
      refine write_outside ?_
      have := h.sp
      omega
  · have hzero : i = 0 := by
      refine (hinner hend).resolve_right fun hnil => ?_
      rw [h.sp, hnil, List.length_nil] at hroom
      omega
    subst hzero
    refine ⟨?_, contents_set hframes hf fun k hk => ?_⟩
    · rw [htop, hlast]
      exact hframes.resize hf h.base hlow (Nat.le_of_eq hlast)
    · rw [h.cells]
      refine write_outside (Or.inl (hk.resolve_right fun h => h.1 rfl))

theorem Popped.owned (h : Popped s f n s' f') (hframes : Tiled s.top frames)
    (hf : frames[i]? = some f) (hinner : f.sp = s.top → i = 0) :
    Tiled s'.top (frames.set i f') ∧ (frames.set i f').map (contents s'.cells) =
      (frames.map (contents s.cells)).set i
        ((contents s.cells f).take ((contents s.cells f).length - n)) := by
  obtain ⟨hbase, hsp, hend⟩ := hframes.mem (List.mem_of_getElem? hf)
  have henough := h.enough
  have hlow : f'.base ≤ f'.sp := by
    rw [h.base, h.sp]
    omega
  have hnew : contents s'.cells f' =
      (contents s.cells f).take ((contents s.cells f).length - n) := by
    rw [h.cells, length_contents]
    exact contents_take h.base h.sp
  rw [← hnew, contents_set hframes hf fun k _ => congrFun h.cells k]
  refine ⟨?_, rfl⟩
  rcases h.place with ⟨-, hsize, htop⟩ | ⟨htop, hsize, htop'⟩
  · rw [htop]
    refine hframes.set hf h.base hsize hlow ?_
    rw [h.base, h.sp, hsize]
    omega
  · have hzero := hinner htop
    subst hzero
    have hnewtop : s'.top = f'.base + f'.size := by
      rw [htop', h.base, hsize]
      omega
    rw [hnewtop]
    refine hframes.resize hf h.base hlow ?_
    rw [h.base, h.sp, hsize]
    omega

theorem framePopValues_popped {nil o : α} {v v' : Values α} (hbase : f.base ≤ f.sp)
    (htop : f.sp = s.top) (hnil : (f.sp - f.base) % multipleValuesLimit = 0 → v.value 0 = nil)
    (h : framePopValues nil s f v = some (o, v', s', f')) :
    Popped s f ((f.sp - f.base) % multipleValuesLimit) s' f' ∧
      v'.toList = (contents s.cells f).drop
        (f.sp - f.base - (f.sp - f.base) % multipleValuesLimit) ∧
      o = v'.toList.headD nil := by
  have hle : (f.sp - f.base) % multipleValuesLimit ≤ f.sp - f.base := Nat.mod_le _ _
  simp only [framePopValues, if_pos htop] at h
  generalize (f.sp - f.base) % multipleValuesLimit = n at h hle hnil ⊢
  split at h
  · cases h
  cases h
  refine ⟨⟨rfl, by omega, rfl, rfl, Or.inr ⟨htop, rfl, rfl⟩⟩, ?_, ?_⟩
  · rw [← contents_drop (by omega), Values.toList]
    refine List.map_congr_left fun k hk => ?_
    rw [htop]
    exact if_pos (List.mem_range.mp hk)
  · cases n with
    | zero => exact hnil rfl
    | succ n =>
      rw [Values.toList, List.range_succ_eq_map, List.map_cons]
      rfl

end

/-- No frame but the newest is used while its end is the stack top (nothing may be pushed then),
and values are popped from that end only, and some of them. -/
def Private (nil : α) (e : Env α) : Op α → Prop
  | .grow _ | .setValues _ | .openFrame _ | .closeFrame => True
  | .push i _ | .pop i => ∀ f, e.frames[i]? = some f → f.sp = e.stack.top → i = 0
  | .pushValues i =>
    ∀ f, e.frames[i]? = some f → f.sp = e.stack.top → i = 0 ∨ e.values.toList = []
  | .popValues i => i = 0 ∧ ∀ f, e.frames[i]? = some f → f.sp = e.stack.top ∧
    ((f.sp - f.base) % multipleValuesLimit = 0 → e.values.value 0 = nil)

section
variable {nil : α} {e e' : Env α} {op : Op α} {out : Option α}

theorem toList_write (v : ℕ → α) (os : List α) :
    (Values.mk (write v 0 os) os.length).toList = os := by
  refine List.ext_getElem ?_ fun k hk hk' => ?_
  · rw [Values.toList, List.length_map, List.length_range]
  · simp only [Values.toList, List.getElem_map, List.getElem_range]
    have hinside := @write_inside _ v 0 k os hk'
    rwa [Nat.zero_add] at hinside

theorem step_private (hframes : Tiled e.stack.top e.frames) (hop : Private nil e op)
    (h : step nil e op = some (e', out)) :
    Tiled e'.stack.top e'.frames ∧ e.owned.step nil op = some (e'.owned, out) := by
  cases op with
  | grow more =>
    cases h
    exact ⟨hframes, rfl⟩
  | setValues os =>
    cases h
    refine ⟨hframes, ?_⟩
    rw [Stacks.step, Env.owned, Env.owned, toList_write]
  | openFrame size =>
    cases h
    refine ⟨⟨Nat.le_refl _, Nat.le_add_right _ _, rfl, hframes⟩, ?_⟩
    simp [Stacks.step, Env.owned, contents, RunStack.reserve]
  | closeFrame =>
    rw [step] at h
    split at h
    · cases h
    next f frames hsome =>
    cases h
    rw [hsome] at hframes
    refine ⟨hframes.2.2.2, ?_⟩
    rw [Stacks.step, Env.owned, hsome]
    rfl
  | push i o =>
    obtain ⟨f, hf, h⟩ := Option.bind_eq_some_iff.mp h
    obtain ⟨⟨s', f'⟩, hpush, h⟩ := Option.bind_eq_some_iff.mp h
    cases h
    have hplace := hframes.mem (List.mem_of_getElem? hf)
    obtain ⟨htiled, hcontents⟩ := (framePush_pushed hpush hplace.2.1).owned hframes hf
      fun htop => Or.inl (hop f hf htop)
    refine ⟨htiled, ?_⟩
    simp [Stacks.step, Env.owned, hf, hcontents]
  | pop i =>
    obtain ⟨f, hf, h⟩ := Option.bind_eq_some_iff.mp h
    obtain ⟨⟨o, s', f'⟩, hpop, h⟩ := Option.bind_eq_some_iff.mp h
    cases h
    obtain ⟨hpopped, rfl⟩ := framePop_popped hpop
    obtain ⟨htiled, hcontents⟩ := hpopped.owned hframes hf (hop f hf)
    refine ⟨htiled, ?_⟩
    have hlast := @contents_last _ e.stack.cells f hpopped.enough
    simp [Stacks.step, Env.owned, hf, hcontents, hlast, List.dropLast_eq_take]
  | pushValues i =>
    obtain ⟨f, hf, h⟩ := Option.bind_eq_some_iff.mp h
    obtain ⟨⟨s', f'⟩, hpush, h⟩ := Option.bind_eq_some_iff.mp h
    cases h
    have hplace := hframes.mem (List.mem_of_getElem? hf)
    obtain ⟨htiled, hcontents⟩ := (framePushValues_pushed hpush hplace.1).owned hframes hf
      (hop f hf)
    refine ⟨htiled, ?_⟩
    simp [Stacks.step, Env.owned, hf, hcontents]
  | popValues i =>
    obtain ⟨f, hf, h⟩ := Option.bind_eq_some_iff.mp h
    obtain ⟨⟨o, v', s', f'⟩, hpop, h⟩ := Option.bind_eq_some_iff.mp h
    cases h
    obtain ⟨hzero, hf'⟩ := hop
    obtain ⟨htop, hnil⟩ := hf' f hf
    have hplace := hframes.mem (List.mem_of_getElem? hf)
    obtain ⟨hpopped, hvalues, rfl⟩ := framePopValues_popped hplace.1 htop hnil hpop
    obtain ⟨htiled, hcontents⟩ := hpopped.owned hframes hf fun _ => hzero
    refine ⟨htiled, ?_⟩
    simp [Stacks.step, Env.owned, hf, hcontents, hvalues, length_contents]

def PrivateRun (nil : α) : Env α → List (Op α) → Prop
  | _, [] => True
  | e, op :: ops => Private nil e op ∧
    ∀ e' out, step nil e op = some (e', out) → PrivateRun nil e' ops

theorem run_private {ops : List (Op α)} {outs : List (Option α)}
    (hframes : Tiled e.stack.top e.frames) (hops : PrivateRun nil e ops)
    (h : run nil e ops = some (e', outs)) : e.owned.run nil ops = some (e'.owned, outs) := by
  induction ops generalizing e outs with
  | nil =>
    cases h
    rfl
  | cons op ops ih =>
    obtain ⟨⟨e₁, out⟩, hstep, h⟩ := Option.bind_eq_some_iff.mp h
    obtain ⟨⟨e₂, outs⟩, hrun, h⟩ := Option.bind_eq_some_iff.mp h
    cases h
    obtain ⟨hframes₁, hlists⟩ := step_private hframes hops.1 hstep
    have hrest := ih hframes₁ (hops.2 e₁ out hstep) hrun
    rw [Stacks.run, hlists]
    simp [hrest]

end

/-- From a stack without frames on, whatever is opened, used and closed: the frames hold what
stacks of their own would hold, and the operations return what those would return. -/
theorem frames_are_private (nil : α) (s : RunStack α) (v : Values α) (ops : List (Op α))
    (hops : PrivateRun nil ⟨s, v, []⟩ ops) (e : Env α) (outs : List (Option α))
    (hrun : run nil ⟨s, v, []⟩ ops = some (e, outs)) :
    (Stacks.mk [] v.toList).run nil ops = some (e.owned, outs) :=
  run_private (e := ⟨s, v, []⟩) trivial hops hrun

def emptyStack : RunStack ℕ := ⟨fun _ => 0, 1, 32, by decide⟩

def noValues : Values ℕ := ⟨fun _ => 0, 0⟩

def innerPop : List (Op ℕ) := [.openFrame 0, .push 0 7, .openFrame 1, .popValues 1]

theorem frames_are_private_pushed : ∃ e outs,
    run 0 ⟨emptyStack, noValues, []⟩ [.openFrame 0, .push 0 7, .popValues 0] = some (e, outs) ∧
      (Stacks.mk [] noValues.toList).run 0 [.openFrame 0, .push 0 7, .popValues 0] =
        some (e.owned, outs) := by
  refine ⟨_, _, rfl, frames_are_private 0 emptyStack noValues _ ?_ _ _ rfl⟩
  refine ⟨trivial, fun _ _ h => ?_⟩
  cases h
  refine ⟨fun _ _ _ => rfl, fun _ _ h => ?_⟩
  cases h
  refine ⟨⟨rfl, fun f hf => ?_⟩, fun _ _ _ => trivial⟩
  cases hf
  exact ⟨rfl, fun h => by cases h⟩

/-- The value is delivered, and is still there with another object above it. -/
theorem inner_values_stay : ¬ ∀ (ops : List (Op ℕ)) e outs,
    run 0 ⟨emptyStack, noValues, []⟩ ops = some (e, outs) →
      (Stacks.mk [] noValues.toList).run 0 ops = some (e.owned, outs) := by
  intro h
  have hlists := h innerPop _ _ rfl
  revert hlists
  decide

end StackFrames
