import Mathlib.Data.Int.Basic

/-! Synonym and two-way streams of src/c/streams/strm_composite.d with the dispatchers of
src/c/stream.d. The streams below them are any streams with an own state. -/
namespace ForwardingStreams

/-- A stream is known by its place in the heap; nil and the numbers are no streams. -/
inductive Object where
  | nil
  | fixnum (i : ℤ)
  | stream (id : ℕ)
  deriving DecidableEq

/-- The members of ecl_file_ops with their arguments, apart from close. -/
inductive Operation where
  | readByte8 (n : ℕ)
  | writeByte8 (c : List UInt8)
  | readByte
  | writeByte (byte : Object)
  | unreadByte (byte : Object)
  | peekByte
  | readChar
  | writeChar (c : ℤ)
  | unreadChar (c : ℤ)
  | peekChar
  | readVector (data : List Object) (start stop : ℕ)
  | writeVector (data : List Object) (start stop : ℕ)
  | listen
  | clearInput
  | clearOutput
  | finishOutput
  | forceOutput
  | inputP
  | outputP
  | interactiveP
  | elementType
  | length
  | getPosition
  | setPosition (pos : Object)
  | stringLength (string : Object)
  | column
  | pathname
  | truename
  deriving DecidableEq

/-- What an operation returns; octets and vectors are filled by their reads. -/
inductive Answer where
  | void
  | octets (c : List UInt8)
  | count (n : ℕ)
  | object (o : Option Object)
  | char (c : Option ℤ)
  | vector (data : List Object) (n : ℕ)
  | flag (n : ℤ)
  deriving DecidableEq

inductive StreamError where
  | wrongType (o : Object)
  | unboundVariable (symbol : ℕ)
  | notAFileStream (o : Object)
  | component (code : ℕ)
  | stackOverflow
  deriving DecidableEq

inductive Stream (σ : Type*) where
  | primitive (state : σ)
  | synonym (symbol : ℕ)
  | twoWay (input output : Object)
  deriving DecidableEq

structure World (σ : Type*) where
  streams : ℕ → Stream σ
  symbolValue : ℕ → Option Object
  terminalIo : Object

/-- What the method of a stream does: it calls the same or another dispatcher, possibly after
ecl_force_output, or it answers itself. -/
inductive Method where
  | call (strm : Object) (o : Operation)
  | forceAndCall (output strm : Object) (o : Operation)
  | answer (r : Except StreamError Answer)

/-- synonym_ops; the first argument is SYNONYM_STREAM_STREAM. synonym_unread_byte passes the
stream as the byte and the byte as the stream. -/
def synonymOps (stream : Object) : Operation → Method
  | .readByte8 n => .call stream (.readByte8 n)
  | .writeByte8 c => .call stream (.writeByte8 c)
  | .readByte => .call stream .readByte
  | .writeByte byte => .call stream (.writeByte byte)
  | .unreadByte byte => .call byte (.unreadByte stream)
  | .peekByte => .call stream .peekByte
  | .readChar => .call stream .readChar
  | .writeChar c => .call stream (.writeChar c)
  | .unreadChar c => .call stream (.unreadChar c)
  | .peekChar => .call stream .peekChar
  | .readVector data start n => .call stream (.readVector data start n)
  | .writeVector data start n => .call stream (.writeVector data start n)
  | .listen => .call stream .listen
  | .clearInput => .call stream .clearInput
  | .clearOutput => .call stream .clearOutput
  | .finishOutput => .call stream .finishOutput
  | .forceOutput => .call stream .forceOutput
  | .inputP => .call stream .inputP
  | .outputP => .call stream .outputP
  | .interactiveP => .call stream .interactiveP
  | .elementType => .call stream .elementType
  | .length => .call stream .length
  | .getPosition => .call stream .getPosition
  | .setPosition pos => .call stream (.setPosition pos)
  | .stringLength string => .call stream (.stringLength string)
  | .column => .call stream .column
  | .pathname => .call stream .pathname
  | .truename => .call stream .truename

/-- two_way_ops. Reading octets from *TERMINAL-IO* forces its output first. -/
def twoWayOps (terminalIo strm input output : Object) : Operation → Method
  | .readByte8 n =>
    if strm = terminalIo then .forceAndCall output input (.readByte8 n)
    else .call input (.readByte8 n)
  | .writeByte8 c => .call output (.writeByte8 c)
  | .readByte => .call input .readByte
  | .writeByte byte => .call output (.writeByte byte)
  | .unreadByte byte => .call input (.unreadByte byte)
  | .peekByte => .call input .peekByte
  | .readChar => .call input .readChar
  | .writeChar c => .call output (.writeChar c)
  | .unreadChar c => .call input (.unreadChar c)
  | .peekChar => .call input .peekChar
  | .readVector data start n => .call input (.readVector data start n)
  | .writeVector data start n => .call output (.writeVector data start n)
  | .listen => .call input .listen
  | .clearInput => .call input .clearInput
  | .clearOutput => .call output .clearOutput
  | .finishOutput => .call output .finishOutput
  | .forceOutput => .call output .forceOutput
  | .inputP => .answer (.ok (.flag 1))
  | .outputP => .answer (.ok (.flag 1))
  | .interactiveP => .call input .interactiveP
  | .elementType => .call input .elementType
  | .length => .answer (.error (.notAFileStream strm))
  | .getPosition => .answer (.ok (.object (some .nil)))
  | .setPosition _ => .answer (.ok (.object (some .nil)))
  | .stringLength _ => .answer (.error (.notAFileStream strm))
  | .column => .call output .column
  | .pathname => .answer (.error (.notAFileStream strm))
  | .truename => .answer (.error (.notAFileStream strm))

section
variable {σ : Type*} (primitive : Operation → σ → Except StreamError Answer × σ)

def Method.invoke (call : World σ → Object → Operation → Except StreamError Answer × World σ)
    (w : World σ) : Method → Except StreamError Answer × World σ
  | .call strm o => call w strm o
  | .forceAndCall output strm o =>
    match call w output .forceOutput with
    | (.ok _, w) => call w strm o
    | (.error e, w) => (.error e, w)
  | .answer r => (r, w)

/-- A dispatcher with its operation. The number is the depth that is left on the C stack: the
value of a symbol may be the synonym stream of the symbol itself. -/
def perform : ℕ → World σ → Object → Operation → Except StreamError Answer × World σ
  | 0, w, _, _ => (.error .stackOverflow, w)
  | n + 1, w, .stream id, o =>
    match w.streams id with
    | .primitive state =>
      let r := primitive o state
      (r.1, { w with streams := Function.update w.streams id (.primitive r.2) })
    | .synonym symbol =>
      match w.symbolValue symbol with
      | some stream => (synonymOps stream o).invoke (perform n) w
      | none => (.error (.unboundVariable symbol), w)
    | .twoWay input output =>
      (twoWayOps w.terminalIo (.stream id) input output o).invoke (perform n) w
  | _ + 1, w, strm, _ => (.error (.wrongType strm), w)

def run (n : ℕ) (w : World σ) : List (Object × Operation) →
    List (Except StreamError Answer) × World σ
  | [] => ([], w)
  | (strm, o) :: os =>
    let r := perform primitive n w strm o
    let rest := run n r.2 os
    (r.1 :: rest.1, rest.2)

end

variable {σ : Type*} {primitive : Operation → σ → Except StreamError Answer × σ}

structure SameWrappers (w w' : World σ) : Prop where
  symbolValue : w'.symbolValue = w.symbolValue
  terminalIo : w'.terminalIo = w.terminalIo
  streams : ∀ id, (∀ state, w.streams id ≠ .primitive state) → w'.streams id = w.streams id

theorem SameWrappers.refl (w : World σ) : SameWrappers w w := ⟨rfl, rfl, fun _ _ => rfl⟩

theorem SameWrappers.trans {w w' w'' : World σ} (h : SameWrappers w w')
    (h' : SameWrappers w' w'') : SameWrappers w w'' where
  symbolValue := h'.symbolValue.trans h.symbolValue
  terminalIo := h'.terminalIo.trans h.terminalIo
  streams id hid := (h'.streams id (by rwa [h.streams id hid])).trans (h.streams id hid)

theorem invoke_sameWrappers
    {call : World σ → Object → Operation → Except StreamError Answer × World σ}
    (h : ∀ w strm o, SameWrappers w (call w strm o).2) (w : World σ) (m : Method) :
    SameWrappers w (m.invoke call w).2 := by
  cases m with
  | call strm o => exact h w strm o
  | forceAndCall output strm o =>
    have hforce := h w output .forceOutput
    simp only [Method.invoke]
    cases hp : call w output .forceOutput with
    | mk r w' =>
      rw [hp] at hforce
      cases r with
      | ok a => exact hforce.trans (h w' strm o)
      | error e => exact hforce
  | answer r => exact SameWrappers.refl w

variable (primitive) in
theorem perform_sameWrappers (n : ℕ) (w : World σ) (strm : Object) (o : Operation) :
    SameWrappers w (perform primitive n w strm o).2 := by
  induction n generalizing w strm o with
  | zero => exact SameWrappers.refl w
  | succ n ih =>
    cases strm with
    | nil => exact SameWrappers.refl w
    | fixnum i => exact SameWrappers.refl w
    | stream id =>
      rw [perform]
      cases hs : w.streams id with
      | primitive state =>
        refine ⟨rfl, rfl, fun j hj => Function.update_of_ne ?_ ..⟩
        rintro rfl
        exact hj state hs
      | synonym symbol =>
        cases hv : w.symbolValue symbol with
        | none => simp only [hv]; exact SameWrappers.refl w
        | some stream => simp only [hv]; exact invoke_sameWrappers ih w _
      | twoWay input output => exact invoke_sameWrappers ih w _

theorem synonym_forwards {w : World σ} {id symbol : ℕ} {stream : Object}
    (hs : w.streams id = .synonym symbol) (hv : w.symbolValue symbol = some stream)
    {o : Operation} (ho : ∀ byte, o ≠ .unreadByte byte) (n : ℕ) :
    perform primitive (n + 1) w (.stream id) o = perform primitive n w stream o := by
  have hperform : perform primitive (n + 1) w (.stream id) o =
      (synonymOps stream o).invoke (perform primitive n) w := by
    simp only [perform, hs, hv]
  rw [hperform]
  cases o with
  | unreadByte byte => exact absurd rfl (ho byte)
  | _ => rfl

def component (input output : Object) : Operation → Object
  | .writeByte8 _ | .writeByte _ | .writeChar _ | .writeVector _ _ _ => output
  | .clearOutput | .finishOutput | .forceOutput | .column => output
  | _ => input

/-- The operations of two-way streams that do not ask for a file or for the directions. -/
def Forwards (terminal : Prop) : Operation → Prop
  | .inputP | .outputP | .length | .getPosition | .setPosition _ | .stringLength _ => False
  | .pathname | .truename => False
  | .readByte8 _ => ¬ terminal
  | _ => True

theorem two_way_forwards {w : World σ} {id : ℕ} {input output : Object}
    (hs : w.streams id = .twoWay input output) {o : Operation}
    (ho : Forwards (.stream id = w.terminalIo) o) (n : ℕ) :
    perform primitive (n + 1) w (.stream id) o =
      perform primitive n w (component input output o) o := by
  have hperform : perform primitive (n + 1) w (.stream id) o =
      (twoWayOps w.terminalIo (.stream id) input output o).invoke (perform primitive n) w := by
    simp only [perform, hs]
  rw [hperform]
  cases o with
  | readByte8 k => rw [twoWayOps, if_neg ho]; rfl
  | _ => first | rfl | exact False.elim ho

theorem synonym_run {w : World σ} {id symbol : ℕ} {stream : Object}
    (hs : w.streams id = .synonym symbol) (hv : w.symbolValue symbol = some stream) (n : ℕ)
    (os : List Operation) (ho : ∀ o ∈ os, ∀ byte, o ≠ .unreadByte byte) :
    run primitive (n + 1) w (os.map fun o => (.stream id, o)) =
      run primitive n w (os.map fun o => (stream, o)) := by
  induction os generalizing w with
  | nil => rfl
  | cons o os ih =>
    have hsame := perform_sameWrappers primitive n w stream o
    have hnext := ih ((hsame.streams id (by simp [hs])).trans hs)
      (by rw [hsame.symbolValue]; exact hv) fun o hm => ho o (List.mem_cons_of_mem _ hm)
    simp only [List.map_cons, run, synonym_forwards hs hv (ho o List.mem_cons_self), hnext]

theorem two_way_run {w : World σ} {id : ℕ} {input output : Object}
    (hs : w.streams id = .twoWay input output) (n : ℕ) (os : List Operation)
    (ho : ∀ o ∈ os, Forwards (.stream id = w.terminalIo) o) :
    run primitive (n + 1) w (os.map fun o => (.stream id, o)) =
      run primitive n w (os.map fun o => (component input output o, o)) := by
  induction os generalizing w with
  | nil => rfl
  | cons o os ih =>
    have hsame := perform_sameWrappers primitive n w (component input output o) o
    have hnext := ih ((hsame.streams id (by simp [hs])).trans hs)
      (by rw [hsame.terminalIo]; exact fun o hm => ho o (List.mem_cons_of_mem _ hm))
    simp only [List.map_cons, run, two_way_forwards hs (ho o List.mem_cons_self), hnext]

structure OwnAnswers (primitive : Operation → σ → Except StreamError Answer × σ) (n : ℕ)
    (w : World σ) (strm : Object) : Prop where
  getPosition : perform primitive n w strm .getPosition = (.ok (.object (some .nil)), w)
  setPosition : ∀ pos, perform primitive n w strm (.setPosition pos) =
    (.ok (.object (some .nil)), w)
  length : perform primitive n w strm .length = (.error (.notAFileStream strm), w)
  stringLength : ∀ string, perform primitive n w strm (.stringLength string) =
    (.error (.notAFileStream strm), w)

/-- A sequence of operations through a synonym or a two-way stream is that of the stream below,
apart from UNREAD-BYTE of the one and questions about a file to the other. -/
theorem wrappers_are_transparent (primitive : Operation → σ → Except StreamError Answer × σ)
    (n : ℕ) (w : World σ) (id : ℕ) :
    (∀ symbol stream, w.streams id = .synonym symbol → w.symbolValue symbol = some stream →
      ∀ os : List Operation, (∀ o ∈ os, ∀ byte, o ≠ .unreadByte byte) →
        run primitive (n + 1) w (os.map fun o => (.stream id, o)) =
          run primitive n w (os.map fun o => (stream, o))) ∧
    (∀ input output, w.streams id = .twoWay input output →
      (∀ os : List Operation, (∀ o ∈ os, Forwards (.stream id = w.terminalIo) o) →
        run primitive (n + 1) w (os.map fun o => (.stream id, o)) =
          run primitive n w (os.map fun o => (component input output o, o))) ∧
      OwnAnswers primitive (n + 1) w (.stream id)) := by
  constructor
  · exact fun symbol stream hs hv os ho => synonym_run hs hv n os ho
  · intro input output hs
    refine ⟨fun os ho => two_way_run hs n os ho, ?_⟩
    constructor <;> intros <;> simp only [perform, hs, twoWayOps, Method.invoke]

def counter : Operation → ℤ → Except StreamError Answer × ℤ
  | .readChar, i => (.ok (.char (some i)), i + 1)
  | .writeChar _, i => (.ok .void, i + 1)
  | .getPosition, i => (.ok (.object (some (.fixnum i))), i)
  | _, i => (.error (.component 0), i)

def counters : World ℤ where
  streams
    | 2 => .twoWay (.stream 0) (.stream 1)
    | 3 => .synonym 0
    | _ => .primitive 0
  symbolValue
    | 0 => some (.stream 2)
    | _ => none
  terminalIo := .nil

theorem wrappers_are_transparent_counters :
    run counter 3 counters [(.stream 3, .readChar), (.stream 3, .writeChar 5)] =
      run counter 2 counters [(.stream 2, .readChar), (.stream 2, .writeChar 5)] ∧
    run counter 2 counters [(.stream 2, .readChar), (.stream 2, .writeChar 5)] =
      run counter 1 counters [(.stream 0, .readChar), (.stream 1, .writeChar 5)] :=
  ⟨(wrappers_are_transparent counter 2 counters 3).1 0 (.stream 2) rfl rfl
      [.readChar, .writeChar 5] (by simp),
    ((wrappers_are_transparent counter 1 counters 2).2 (.stream 0) (.stream 1) rfl).1
      [.readChar, .writeChar 5] (by simp [Forwards])⟩

/-- The position of a two-way stream is NIL where its components have positions. -/
theorem two_way_position_not_forwarded :
    (perform counter 2 counters (.stream 2) .getPosition).1 ≠
        (perform counter 1 counters (.stream 0) .getPosition).1 ∧
      (perform counter 2 counters (.stream 2) .getPosition).1 ≠
        (perform counter 1 counters (.stream 1) .getPosition).1 := by
  constructor <;> intro h <;> cases h

end ForwardingStreams
