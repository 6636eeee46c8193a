import Ecl.DirectoryLists

/-! The matchers of pathname-match-p, and when they decide the language of their pattern. -/
namespace WildcardMatching

open Pathnames

def asterisk : ℕ := 42
def questionMark : ℕ := 63
def backslash : ℕ := 92

/-- The loop of an asterisk: it takes one more character until the rest matches, but never the
last one. -/
def anyStart (matchRest : LispString → Bool) : LispString → Bool
  | [] => false
  | c :: s => matchRest (c :: s) || anyStart matchRest s

/-- ecl_string_match. Lists of what comes next stand for the positions in both strings. A
backslash goes on to the default case, which still looks for the backslash. -/
def stringMatch : LispString → LispString → Bool
  | s, [] => s.isEmpty
  | s, cp :: p =>
    if cp = asterisk then
      match p with
      | [] => true
      | cn :: _ => if cn = asterisk then stringMatch s p else anyStart (fun t => stringMatch t p) s
    else if cp = questionMark then
      match s with
      | [] => false
      | _ :: s => stringMatch s p
    else if cp = backslash then
      match s, p with
      | [], _ => false
      | c :: s, [] => if c = cp then s.isEmpty else false
      | c :: s, _ :: p => if c = cp then stringMatch s p else false
    else
      match s with
      | [] => false
      | c :: s => if c = cp then stringMatch s p else false
termination_by structural _ p => p

/-- path_item_match; the error is that the mask is not supported. -/
def pathItemMatch (a mask : Component) : Except Component Bool :=
  if mask = .wild then .ok true
  else
    match a, mask with
    | .string _, .null => .ok false
    | .string s, .string p => .ok (stringMatch s p)
    | .string _, mask => .error mask
    | a, mask => .ok (a = mask)

/-- The loop of :wild-inferiors. -/
def anyTail (matchRest : List Component → Except Component Bool) :
    List Component → Except Component Bool
  | [] => .ok false
  | x :: a => do
    if ← matchRest (x :: a) then return true
    anyTail matchRest a

def pathListMatch : List Component → List Component → Except Component Bool
  | a, [] => .ok a.isEmpty
  | a, itemMask :: mask =>
    if itemMask = .wildInferiors then
      if mask = [] then .ok true else anyTail (fun t => pathListMatch t mask) a
    else
      match a with
      | [] =>
        if itemMask ≠ .absolute ∧ itemMask ≠ .relative then .ok false else pathListMatch [] mask
      | x :: a => do
        if ← pathItemMatch x itemMask then pathListMatch a mask else .ok false

inductive Token where
  | star
  | any
  | char (c : ℕ)
  | escaped (c : ℕ)
  deriving DecidableEq

def tokens : LispString → List Token
  | [] => []
  | c :: p =>
    if c = asterisk then .star :: tokens p
    else if c = questionMark then .any :: tokens p
    else if c = backslash then
      match p with
      | [] => [.char c]
      | c :: p => .escaped c :: tokens p
    else .char c :: tokens p

inductive InLanguage : List Token → LispString → Prop where
  | nil : InLanguage [] []
  | star {p s} (w : LispString) (h : InLanguage p s) : InLanguage (.star :: p) (w ++ s)
  | any {p s} (c : ℕ) (h : InLanguage p s) : InLanguage (.any :: p) (c :: s)
  | char {p s} (c : ℕ) (h : InLanguage p s) : InLanguage (.char c :: p) (c :: s)
  | escaped {p s} (c : ℕ) (h : InLanguage p s) : InLanguage (.escaped c :: p) (c :: s)

inductive ItemMatches : Component → Component → Prop where
  | wild (x : Component) : ItemMatches .wild x
  | string {p s} (h : InLanguage (tokens p) s) : ItemMatches (.string p) (.string s)
  | same (x : Component) (h : ∀ p, x ≠ .string p) : ItemMatches x x

/-- The directories that a mask stands for; no directory at all stands for either kind too. -/
inductive Matches : List Component → List Component → Prop where
  | nil : Matches [] []
  | inferiors {m a} (w : List Component) (h : Matches m a) : Matches (.wildInferiors :: m) (w ++ a)
  | item {x c m a} (hx : x ≠ .wildInferiors) (hc : ItemMatches x c) (h : Matches m a) :
    Matches (x :: m) (c :: a)
  | missing {x m} (hx : x = .absolute ∨ x = .relative) (h : Matches m []) : Matches (x :: m) []

section
variable {s : LispString} {c : ℕ} {p : List Token}

theorem inLanguage_nil : InLanguage [] s ↔ s = [] := by
  constructor
  · intro h
    cases h
    rfl
  · rintro rfl
    exact .nil

theorem inLanguage_star : InLanguage (.star :: p) s ↔ ∃ w t, s = w ++ t ∧ InLanguage p t := by
  constructor
  · intro h
    cases h with
    | star w h => exact ⟨w, _, rfl, h⟩
  · rintro ⟨w, t, rfl, h⟩
    exact .star w h

theorem inLanguage_any : InLanguage (.any :: p) s ↔ ∃ c t, s = c :: t ∧ InLanguage p t := by
  constructor
  · intro h
    cases h with
    | any c h => exact ⟨c, _, rfl, h⟩
  · rintro ⟨c, t, rfl, h⟩
    exact .any c h

theorem inLanguage_char : InLanguage (.char c :: p) s ↔ ∃ t, s = c :: t ∧ InLanguage p t := by
  constructor
  · intro h
    cases h with
    | char c h => exact ⟨_, rfl, h⟩
  · rintro ⟨t, rfl, h⟩
    exact .char c h

theorem inLanguage_escaped :
    InLanguage (.escaped c :: p) s ↔ ∃ t, s = c :: t ∧ InLanguage p t := by
  constructor
  · intro h
    cases h with
    | escaped c h => exact ⟨_, rfl, h⟩
  · rintro ⟨t, rfl, h⟩
    exact .escaped c h

end

def Token.taken : Token → Token
  | .star => .star
  | .any => .any
  | .char c => .char c
  | .escaped _ => .char backslash

section
variable {s p : LispString} {c : ℕ}

theorem anyStart_iff {f : LispString → Bool} :
    anyStart f s = true ↔ ∃ w t, s = w ++ t ∧ t ≠ [] ∧ f t = true := by
  induction s with
  | nil =>
    refine iff_of_false Bool.false_ne_true ?_
    rintro ⟨w, t, h, ht, -⟩
    exact ht (List.append_eq_nil_iff.mp h.symm).2
  | cons c s ih =>
    rw [anyStart, Bool.or_eq_true, ih]
    constructor
    · rintro (h | ⟨w, t, rfl, ht, h⟩)
      · exact ⟨[], c :: s, rfl, List.cons_ne_nil c s, h⟩
      · exact ⟨c :: w, t, rfl, ht, h⟩
    · rintro ⟨w, t, hs, ht, h⟩
      rcases List.cons_eq_append_iff.mp hs with ⟨-, rfl⟩ | ⟨w, -, rfl⟩
      · exact Or.inl h
      · exact Or.inr ⟨w, t, rfl, ht, h⟩

theorem stringMatch_star : stringMatch s (asterisk :: p) = true ↔
    p = [] ∨ p.head? = some asterisk ∧ stringMatch s p = true ∨
      p.head? ≠ some asterisk ∧ ∃ w t, s = w ++ t ∧ t ≠ [] ∧ stringMatch t p = true := by
  rw [stringMatch.eq_def, ← anyStart_iff]
  cases p with
  | nil => simp
  | cons c p =>
    by_cases hc : c = asterisk
    · simp [hc]
    · simp [hc]

theorem stringMatch_any :
    stringMatch s (questionMark :: p) = true ↔ ∃ c t, s = c :: t ∧ stringMatch t p = true := by
  rw [stringMatch.eq_def]
  cases s <;> simp [asterisk, questionMark]

theorem stringMatch_backslash :
    stringMatch s (backslash :: p) = true ↔
      ∃ t, s = backslash :: t ∧ stringMatch t p.tail = true := by
  rw [stringMatch.eq_def]
  simp only [if_neg (show backslash ≠ asterisk by decide),
    if_neg (show backslash ≠ questionMark by decide), if_true]
  cases p <;> cases s <;> simp [stringMatch]

theorem stringMatch_literal (hstar : c ≠ asterisk) (hany : c ≠ questionMark)
    (hback : c ≠ backslash) :
    stringMatch s (c :: p) = true ↔ ∃ t, s = c :: t ∧ stringMatch t p = true := by
  rw [stringMatch.eq_def]
  simp only [if_neg hstar, if_neg hany, if_neg hback]
  cases s <;> simp

theorem stringMatch_empty (hp : p ≠ []) (h : stringMatch [] p = true) :
    p.head? = some asterisk := by
  cases p with
  | nil => exact absurd rfl hp
  | cons c p =>
    rw [stringMatch.eq_def] at h
    by_cases hc : c = asterisk
    · rw [hc, List.head?_cons]
    · simp [hc] at h

theorem tokens_star : tokens (asterisk :: p) = .star :: tokens p := by
  rw [tokens.eq_def]
  exact if_pos rfl

theorem stringMatch_iff : stringMatch s p = true ↔ InLanguage ((tokens p).map Token.taken) s := by
  fun_induction tokens p generalizing s with
  | case1 => exact List.isEmpty_iff.trans inLanguage_nil.symm
  | case2 p ih =>
    rw [stringMatch_star, List.map_cons, Token.taken, inLanguage_star]
    constructor
    · rintro (rfl | ⟨-, h⟩ | ⟨-, w, t, rfl, -, h⟩)
      · exact ⟨s, [], (List.append_nil s).symm, .nil⟩
      · exact ⟨[], s, rfl, ih.mp h⟩
      · exact ⟨w, t, rfl, ih.mp h⟩
    · rintro ⟨w, t, rfl, h⟩
      rcases eq_or_ne p [] with rfl | hp
      · exact Or.inl rfl
      by_cases hstar : p.head? = some asterisk
      · refine Or.inr (Or.inl ⟨hstar, ih.mpr ?_⟩)
        obtain ⟨p, rfl⟩ : ∃ q, p = asterisk :: q := by
          cases p with
          | nil => cases hstar
          | cons c q => exact ⟨q, by rw [Option.some.inj hstar]⟩
        rw [tokens_star, List.map_cons, Token.taken] at h ⊢
        obtain ⟨w', u, rfl, hu⟩ := inLanguage_star.mp h
        rw [← List.append_assoc]
        exact .star (w ++ w') hu
      · refine Or.inr (Or.inr ⟨hstar, w, t, rfl, ?_, ih.mpr h⟩)
        rintro rfl
        exact hstar (stringMatch_empty hp (ih.mpr h))
  | case3 p _ ih =>
    rw [stringMatch_any, List.map_cons, Token.taken, inLanguage_any]
    simp only [ih]
  | case4 =>
    rw [stringMatch_backslash, List.map_cons, Token.taken, inLanguage_char]
    exact exists_congr fun t => and_congr_right fun _ =>
      List.isEmpty_iff.trans inLanguage_nil.symm
  | case5 c p _ _ ih =>
    rw [stringMatch_backslash, List.map_cons, Token.taken, inLanguage_char]
    simp only [List.tail_cons, ih]
  | case6 c p hstar hany hback ih =>
    rw [stringMatch_literal hstar hany hback, List.map_cons, Token.taken, inLanguage_char]
    simp only [ih]

end

def shortest : List Token → LispString
  | [] => []
  | .star :: p => shortest p
  | .any :: p => questionMark :: shortest p
  | .char c :: p => c :: shortest p
  | .escaped c :: p => c :: shortest p

section
variable {s : LispString} {p : List Token}

theorem inLanguage_shortest (p : List Token) : InLanguage p (shortest p) := by
  induction p with
  | nil => exact .nil
  | cons t p ih =>
    cases t with
    | star => exact .star [] ih
    | any => exact .any questionMark ih
    | char c => exact .char c ih
    | escaped c => exact .escaped c ih

theorem shortest_length_le (h : InLanguage p s) : (shortest p).length ≤ s.length := by
  induction h with
  | nil => exact Nat.le_refl 0
  | star w h ih =>
    rw [List.length_append]
    exact Nat.le_add_left_of_le ih
  | any c h ih | char c h ih | escaped c h ih => exact Nat.succ_le_succ ih

theorem shortest_taken_length (p : List Token) :
    (shortest (p.map Token.taken)).length = (shortest p).length := by
  induction p with
  | nil => rfl
  | cons t p ih =>
    cases t with
    | star => exact ih
    | any | char c | escaped c => exact congrArg (· + 1) ih

/-- The stars of a shortest string are empty, so that its characters meet their tokens. -/
theorem escaped_of_shortest (h : InLanguage (p.map Token.taken) (shortest p)) {c : ℕ}
    (hc : .escaped c ∈ p) : c = backslash := by
  induction p with
  | nil => cases hc
  | cons t p ih =>
    rw [List.map_cons] at h
    cases t with
    | star =>
      obtain ⟨w, u, hs, hu⟩ := inLanguage_star.mp h
      have hlen := shortest_length_le hu
      have hs' := congrArg List.length hs
      rw [shortest_taken_length] at hlen
      rw [shortest, List.length_append] at hs'
      have hw : w = [] := List.length_eq_zero_iff.mp (by omega)
      rw [hw, List.nil_append, shortest] at hs
      exact ih (hs ▸ hu) ((List.mem_cons.mp hc).resolve_left (by intro h; cases h))
    | any =>
      obtain ⟨d, u, hs, hu⟩ := inLanguage_any.mp h
      cases hs
      exact ih hu ((List.mem_cons.mp hc).resolve_left (by intro h; cases h))
    | char d =>
      obtain ⟨u, hs, hu⟩ := inLanguage_char.mp h
      cases hs
      exact ih hu ((List.mem_cons.mp hc).resolve_left (by intro h; cases h))
    | escaped d =>
      obtain ⟨u, hs, hu⟩ := inLanguage_char.mp h
      rw [shortest] at hs
      obtain ⟨hd, rfl⟩ := List.cons.inj hs
      rcases List.mem_cons.mp hc with hc | hc
      · cases hc
        exact hd
      · exact ih hu hc

end

def PlainEscapes (p : LispString) : Prop := ∀ c, .escaped c ∈ tokens p → c = backslash

theorem inLanguage_taken {p : List Token} (h : ∀ c, .escaped c ∈ p → c = backslash)
    (s : LispString) : InLanguage (p.map Token.taken) s ↔ InLanguage p s := by
  induction p generalizing s with
  | nil => exact Iff.rfl
  | cons t p ih =>
    have ih := ih (fun c hc => h c (List.mem_cons_of_mem t hc))
    rw [List.map_cons]
    cases t with
    | star => simp only [Token.taken, inLanguage_star, ih]
    | any => simp only [Token.taken, inLanguage_any, ih]
    | char c => simp only [Token.taken, inLanguage_char, ih]
    | escaped c =>
      simp only [Token.taken, inLanguage_char, inLanguage_escaped, ih, h c List.mem_cons_self]

theorem string_exact_iff (p : LispString) :
    (∀ s, stringMatch s p = true ↔ InLanguage (tokens p) s) ↔ PlainEscapes p := by
  simp only [stringMatch_iff]
  constructor
  · intro h c hc
    exact escaped_of_shortest ((h _).mpr (inLanguage_shortest _)) hc
  · exact fun h s => inLanguage_taken h s

end WildcardMatching
