import Ecl.DirectoryMeaning
import Ecl.SymbolRoundTrip

/-! The cases of pathname components, from src/c/pathname.d: what :case :common makes of a
component, and ecl_make_pathname. A version is passed on as it is and left out here. -/
namespace PathnameCase

open Characters Pathnames DirectoryLists SymbolPrinter
open SymbolRoundTrip (asciiUcd asciiUcd_lawful)

/-- A component, and whether its string is a base string. An item of a directory that is itself
a list is one of the other objects: the check of the directory refuses it. -/
structure Entry where
  component : Component
  base : Bool
  deriving DecidableEq

def unspecific : Component := .other 0

inductive Case where
  | common | upcase | downcase | localCase
  deriving DecidableEq

def normalizeCase (logical : Bool) : Case → Case
  | .localCase => if logical then .upcase else .downcase
  | cas => cas

variable (ucd : Ucd)

/-- An assignment to a character of a string. Those of a base string are octets. -/
def store (base : Bool) (c : ℕ) : ℕ := if base then c % 256 else c

def stringUpcase (base : Bool) (s : LispString) : LispString :=
  s.map fun c => store base (ucd.charUpcase c)

def stringDowncase (base : Bool) (s : LispString) : LispString :=
  s.map fun c => store base (ucd.charDowncase c)

def inLocalCaseP (s : LispString) (cas : Case) : Bool :=
  if cas = .downcase then stringCase ucd s 0 < 0 else true

def inAntilocalCaseP (s : LispString) (cas : Case) : Bool :=
  if cas = .downcase then 0 < stringCase ucd s 0 else false

def toLocalCase (base : Bool) (s : LispString) (cas : Case) : LispString :=
  if cas = .downcase then stringDowncase ucd base s else stringUpcase ucd base s

def toAntilocalCase (base : Bool) (s : LispString) (cas : Case) : LispString :=
  if cas = .downcase then stringUpcase ucd base s else stringUpcase ucd base s

def translateFromCommon (base : Bool) (s : LispString) (tocase : Case) : LispString :=
  if 0 < stringCase ucd s 0 then toLocalCase ucd base s tocase
  else if stringCase ucd s 0 < 0 then toAntilocalCase ucd base s tocase
  else s

def translateToCommon (base : Bool) (s : LispString) (fromcase : Case) : LispString :=
  if inLocalCaseP ucd s fromcase then stringUpcase ucd base s
  else if inAntilocalCaseP ucd s fromcase then stringDowncase ucd base s
  else s

def translateString (base : Bool) (s : LispString) (fromcase tocase : Case) : LispString :=
  if tocase = fromcase then s
  else if tocase = .common then translateToCommon ucd base s fromcase
  else if fromcase = .common then translateFromCommon ucd base s tocase
  else translateFromCommon ucd base (translateToCommon ucd base s fromcase) tocase

def translateComponentCase (e : Entry) (fromcase tocase : Case) : Entry :=
  match e.component with
  | .string s => ⟨.string (translateString ucd e.base s fromcase tocase), e.base⟩
  | _ => e

def translateListCase (l : List Entry) (fromcase tocase : Case) : List Entry :=
  l.map fun e => translateComponentCase ucd e fromcase tocase

/-- The directory argument. A designator of another kind is refused. -/
inductive Designator where
  | string (e : Entry)
  | wild
  | list (l : List Entry)
  | other
  deriving DecidableEq

/-- The symbol that is put into the message of the error. -/
inductive Slot where
  | host | device | name | type | directory
  deriving DecidableEq

inductive Refusal where
  | notValid (slot : Slot)
  | fileError
  deriving DecidableEq

structure Pathname where
  logical : Bool
  host : Component
  device : Component
  directory : List Component
  name : Component
  type : Component
  deriving DecidableEq

def isString : Component → Bool
  | .string _ => true
  | _ => false

def deviceP (logical : Bool) (c : Component) : Bool :=
  c = .null || c = unspecific || (!logical && isString c)

def nameP (c : Component) : Bool := c = .null || c = .wild || isString c

def typeP (c : Component) : Bool := c = .null || c = unspecific || c = .wild || isString c

def directoryList : Designator → Option (List Entry)
  | .string e => some [⟨.absolute, false⟩, e]
  | .wild => some [⟨.absolute, false⟩, ⟨.wildInferiors, false⟩]
  | .list l => some l
  | .other => none

/-- ecl_logical_hostname_p of the host, where a host is a string or NIL. -/
def hostLogical (logicalHostnameP : LispString → Bool) : Component → Option Bool
  | .string h => some (logicalHostnameP h)
  | .null => some false
  | _ => none

def makePathname (logicalHostnameP : LispString → Bool) (host device : Entry)
    (directory : Designator) (name type : Entry) (fromcase : Case) : Except Refusal Pathname :=
  match hostLogical logicalHostnameP host.component with
  | none => .error (.notValid .host)
  | some logical =>
    if ¬ deviceP logical device.component then .error (.notValid .device)
    else if ¬ nameP name.component then .error (.notValid .name)
    else if ¬ typeP type.component then .error (.notValid .type)
    else
      match directoryList directory with
      | none => .error (.notValid .directory)
      | some l =>
        let tocase := normalizeCase logical .localCase
        let fromcase := if logical then .common else normalizeCase logical fromcase
        let translate := fun e => (translateComponentCase ucd e fromcase tocase).component
        match destructivelyCheckDirectory logical false
            ((translateListCase ucd l fromcase tocase).map Entry.component) with
        | none => .error .fileError
        | some checked =>
          .ok ⟨logical, translate host, translate device, checked, translate name, translate type⟩

def Fits (e : Entry) : Prop :=
  e.base = true → ∀ s, e.component = .string s → ∀ c ∈ s, c < 256

structure Stored (logicalHostnameP : LispString → Bool) where
  logical : Bool
  host : Entry
  device : Entry
  directory : List Entry
  name : Entry
  type : Entry
  hosted : hostLogical logicalHostnameP host.component = some logical
  device_valid : deviceP logical device.component
  name_valid : nameP name.component
  type_valid : typeP type.component
  checked : destructivelyCheckDirectory logical false (directory.map Entry.component) =
    some (directory.map Entry.component)
  fits : ∀ e ∈ device :: name :: type :: directory, Fits e

namespace Stored

variable {logicalHostnameP : LispString → Bool} (p : Stored logicalHostnameP)

def get (e : Entry) (scase : Case) : Entry :=
  translateComponentCase ucd e (normalizeCase p.logical .localCase) (normalizeCase p.logical scase)

def pathnameDirectory (scase : Case) : List Entry :=
  translateListCase ucd p.directory (normalizeCase p.logical .localCase)
    (normalizeCase p.logical scase)

def rebuild (scase : Case) : Except Refusal Pathname :=
  makePathname ucd logicalHostnameP p.host (p.get ucd p.device scase)
    (.list (p.pathnameDirectory ucd scase)) (p.get ucd p.name scase) (p.get ucd p.type scase) scase

/-- Equal components, with EQUAL for the strings. The host is not one of them. -/
def Lossless : Prop :=
  ∃ q, p.rebuild ucd .common = .ok q ∧ q.device = p.device.component ∧
    q.directory = p.directory.map Entry.component ∧ q.name = p.name.component ∧
    q.type = p.type.component

end Stored

/-- What the generated tables satisfy. Some small letters have a titlecase letter for their
capital, and one octet has its capital outside of the octets. -/
structure CaseLawful : Prop where
  upper : ∀ c, ucd.upperCaseP c → ucd.lowerCaseP (ucd.charDowncase c) ∧
    ucd.charUpcase (ucd.charDowncase c) = c
  lower : ∀ c, ucd.lowerCaseP c →
    ucd.upperCaseP (ucd.charUpcase c) ∧ ucd.charDowncase (ucd.charUpcase c) = c ∨
    ucd.upperCaseP (ucd.charUpcase c) = false ∧ ucd.lowerCaseP (ucd.charUpcase c) = false ∧
      256 ≤ c
  octet : ∀ c < 256, ucd.upperCaseP c → ucd.charDowncase c < 256
  wide : ∀ c < 256, ucd.lowerCaseP c → 256 ≤ ucd.charUpcase c → c = 255 ∧ ucd.charUpcase c = 376
  letterX : ucd.lowerCaseP 120 ∧ ucd.charUpcase 120 = 88

def Paired (base : Bool) (c : ℕ) : Prop :=
  ucd.upperCaseP (ucd.charUpcase c) ∧ (base = true → ucd.charUpcase c < 256)

/-- A logical name has to be without small letters. In a physical name small letters may be next
to capitals; where there are none, each needs its capital. -/
def Kept (logical base : Bool) (s : LispString) : Prop :=
  if logical then ∀ c ∈ s, ucd.lowerCaseP c = false
  else (∀ c ∈ s, ucd.upperCaseP c = false) → ∀ c ∈ s, ucd.lowerCaseP c → Paired ucd base c

section
variable {ucd} {base logical : Bool} {s : LispString} {c : ℕ}

theorem stringCase_neg (u : ℤ) : stringCase ucd s u < 0 ↔
    (∀ c ∈ s, ucd.upperCaseP c = false) ∧ (u < 0 ∨ u ≤ 0 ∧ ∃ c ∈ s, ucd.lowerCaseP c) := by
  induction s generalizing u with
  | nil => simp [stringCase]
  | cons c s ih =>
    rw [stringCase]
    by_cases hup : ucd.upperCaseP c
    · have hnone : ¬ stringCase ucd s 1 < 0 := by
        rw [ih]
        rintro ⟨-, h | ⟨h, -⟩⟩ <;> omega
      refine iff_of_false ?_ fun h => by simp [hup] at h
      rw [if_pos hup]
      split
      · exact Int.lt_irrefl 0
      · exact hnone
    · rw [if_neg hup]
      by_cases hlow : ucd.lowerCaseP c
      · by_cases hu : 0 < u
        · rw [if_pos hlow, if_pos hu]
          exact iff_of_false (Int.lt_irrefl 0) fun h => by omega
        · rw [if_pos hlow, if_neg hu, ih]
          simp [hup, hlow]
          omega
      · simp [hup, hlow, ih]

theorem stringCase_pos (u : ℤ) : 0 < stringCase ucd s u ↔
    (∀ c ∈ s, ucd.lowerCaseP c = false) ∧ (0 < u ∨ 0 ≤ u ∧ ∃ c ∈ s, ucd.upperCaseP c) := by
  induction s generalizing u with
  | nil => simp [stringCase]
  | cons c s ih =>
    rw [stringCase]
    by_cases hup : ucd.upperCaseP c
    · by_cases hu : u < 0
      · rw [if_pos hup, if_pos hu]
        exact iff_of_false (Int.lt_irrefl 0) fun h => by omega
      · rw [if_pos hup, if_neg hu, ih]
        simp [hup, Ucd.not_lower_of_upper hup]
        omega
    · rw [if_neg hup]
      by_cases hlow : ucd.lowerCaseP c
      · have hnone : ¬ 0 < stringCase ucd s (-1) := by
          rw [ih]
          rintro ⟨-, h | ⟨h, -⟩⟩ <;> omega
        refine iff_of_false ?_ fun h => by simp [hlow] at h
        rw [if_pos hlow]
        split
        · exact Int.lt_irrefl 0
        · exact hnone
      · simp [hup, hlow, ih]

theorem store_of_lt (h : base = true → c < 256) : store base c = c := by
  cases base with
  | false => rfl
  | true => exact Nat.mod_eq_of_lt (h rfl)

theorem CaseLawful.lost (h : CaseLawful ucd) (hfit : base = true → c < 256)
    (hc : ucd.lowerCaseP c) (hpair : ¬ Paired ucd base c) :
    let w := store base (ucd.charUpcase c)
    w ≠ c ∧ store base (ucd.charUpcase w) ≠ c ∧ store base (ucd.charDowncase w) ≠ c := by
  by_cases hwide : base = true ∧ 256 ≤ ucd.charUpcase c
  · obtain ⟨rfl, hlarge⟩ := hwide
    obtain ⟨rfl, hcapital⟩ := h.wide c (hfit rfl) hc hlarge
    have hdown : ucd.charDowncase 120 = 120 := by
      rw [Ucd.charDowncase, Ucd.not_upper_of_lower h.letterX.1]
      rfl
    simp [store, hcapital, h.letterX.2, hdown]
  · have hsmall : base = true → ucd.charUpcase c < 256 :=
      fun hb => Nat.lt_of_not_le fun hlarge => hwide ⟨hb, hlarge⟩
    rcases h.lower c hc with hupper | ⟨hupper, hlower, -⟩
    · exact absurd ⟨hupper.1, hsmall⟩ hpair
    · have hne : ucd.charUpcase c ≠ c := by
        intro heq
        rw [heq, hc] at hlower
        cases hlower
      have hup : ucd.charUpcase (ucd.charUpcase c) = ucd.charUpcase c := by
        rw [Ucd.charUpcase.eq_def ucd (ucd.charUpcase c), hlower]
        rfl
      have hdown : ucd.charDowncase (ucd.charUpcase c) = ucd.charUpcase c := by
        rw [Ucd.charDowncase, hupper]
        rfl
      simp only [store_of_lt hsmall, hup, hdown]
      exact ⟨hne, hne, hne⟩

theorem CaseLawful.twice (h : CaseLawful ucd) (hfit : base = true → c < 256)
    (hc : ucd.lowerCaseP c) :
    store base (ucd.charUpcase c) ≠ c ∧
      store base (ucd.charUpcase (store base (ucd.charUpcase c))) ≠ c := by
  by_cases hpair : Paired ucd base c
  · have hcapital := store_of_lt hpair.2
    have hne : ucd.charUpcase c ≠ c := by
      intro heq
      have hboth := Ucd.not_lower_of_upper hpair.1
      rw [heq, hc] at hboth
      cases hboth
    have hup : ucd.charUpcase (ucd.charUpcase c) = ucd.charUpcase c := by
      rw [Ucd.charUpcase.eq_def ucd (ucd.charUpcase c), Ucd.not_lower_of_upper hpair.1]
      rfl
    rw [hcapital, hup, hcapital]
    exact ⟨hne, hne⟩
  · obtain ⟨hone, htwo, -⟩ := h.lost hfit hc hpair
    exact ⟨hone, htwo⟩

def again (ucd : Ucd) (logical base : Bool) (s : LispString) : LispString :=
  let loc := normalizeCase logical .localCase
  translateString ucd base (translateString ucd base s loc .common) .common loc

theorem map_eq_self {f : ℕ → ℕ} : s.map f = s ↔ ∀ c ∈ s, f c = c := by
  conv_lhs => rw [← List.map_id s, List.map_map]
  exact List.map_inj_left

theorem again_logical (h : CaseLawful ucd) (hfit : base = true → ∀ c ∈ s, c < 256) :
    again ucd true base s = s ↔ ∀ c ∈ s, ucd.lowerCaseP c = false := by
  have hstart : again ucd true base s =
      translateFromCommon ucd base (stringUpcase ucd base s) .upcase := rfl
  rw [hstart]
  constructor
  · intro heq c hc
    by_contra hlow
    obtain ⟨hone, htwo⟩ := h.twice (fun hb => hfit hb c hc) (eq_true_of_ne_false hlow)
    simp only [translateFromCommon, toLocalCase, toAntilocalCase, reduceCtorEq, if_false] at heq
    split at heq
    · rw [stringUpcase, stringUpcase, List.map_map] at heq
      exact htwo (map_eq_self.mp heq c hc)
    split at heq
    · rw [stringUpcase, stringUpcase, List.map_map] at heq
      exact htwo (map_eq_self.mp heq c hc)
    · exact hone (map_eq_self.mp heq c hc)
  · intro hlow
    have hsame : stringUpcase ucd base s = s := by
      refine map_eq_self.mpr fun c hc => ?_
      rw [Ucd.charUpcase, hlow c hc]
      exact store_of_lt fun hb => hfit hb c hc
    simp [translateFromCommon, toLocalCase, toAntilocalCase, hsame]

theorem again_upper (h : CaseLawful ucd) (hfit : base = true → ∀ c ∈ s, c < 256)
    (hs : 0 < stringCase ucd s 0) : again ucd false base s = s := by
  obtain ⟨hlower, hletter⟩ := (stringCase_pos 0).mp hs
  obtain ⟨-, c, hc, hup⟩ := hletter.resolve_left (Int.lt_irrefl 0)
  have hdown : ∀ c ∈ s, store base (ucd.charDowncase c) = ucd.charDowncase c := by
    intro c hc
    refine store_of_lt fun hb => ?_
    by_cases hupper : ucd.upperCaseP c
    · exact h.octet c (hfit hb c hc) hupper
    · rw [Ucd.charDowncase, if_neg hupper]
      exact hfit hb c hc
  have hfirst : translateString ucd base s .downcase .common = stringDowncase ucd base s := by
    have hnot : ¬ stringCase ucd s 0 < 0 := by omega
    simp [translateString, translateToCommon, inLocalCaseP, inAntilocalCaseP, hs, hnot]
  have hnone : ∀ x ∈ stringDowncase ucd base s, ucd.upperCaseP x = false := by
    intro x hx
    obtain ⟨c, hc, rfl⟩ := List.mem_map.mp hx
    rw [hdown c hc]
    by_cases hupper : ucd.upperCaseP c
    · exact Ucd.not_upper_of_lower (h.upper c hupper).1
    · rw [Ucd.charDowncase, if_neg hupper]
      exact eq_false_of_ne_true hupper
  have hneg : stringCase ucd (stringDowncase ucd base s) 0 < 0 := by
    refine (stringCase_neg 0).mpr ⟨hnone, Or.inr ⟨Int.le_refl 0, _, List.mem_map_of_mem hc, ?_⟩⟩
    rw [hdown c hc]
    exact (h.upper c hup).1
  have hback : stringUpcase ucd base (stringDowncase ucd base s) = s := by
    rw [stringUpcase, stringDowncase, List.map_map]
    refine map_eq_self.mpr fun c hc => ?_
    have hfits := store_of_lt fun hb => hfit hb c hc
    rw [Function.comp_apply, hdown c hc]
    by_cases hupper : ucd.upperCaseP c
    · rw [(h.upper c hupper).2, hfits]
    · rw [Ucd.charDowncase, if_neg hupper, Ucd.charUpcase, hlower c hc]
      exact hfits
  have hpos : ¬ 0 < stringCase ucd (stringDowncase ucd base s) 0 := by omega
  have hstart : again ucd false base s = translateString ucd base
    (translateString ucd base s .downcase .common) .common .downcase := rfl
  rw [hstart, hfirst]
  simp [translateString, translateFromCommon, toAntilocalCase, hpos, hneg, hback]

theorem again_lower (h : CaseLawful ucd) (hfit : base = true → ∀ c ∈ s, c < 256)
    (hs : stringCase ucd s 0 < 0) :
    again ucd false base s = s ↔ ∀ c ∈ s, ucd.lowerCaseP c → Paired ucd base c := by
  obtain ⟨hupper, hletter⟩ := (stringCase_neg 0).mp hs
  obtain ⟨-, a, ha, hlow⟩ := hletter.resolve_left (Int.lt_irrefl 0)
  have hstart : again ucd false base s =
      translateFromCommon ucd base (stringUpcase ucd base s) .downcase := by
    have hfirst : translateString ucd base s .downcase .common = stringUpcase ucd base s := by
      simp [translateString, translateToCommon, inLocalCaseP, hs]
    rw [← hfirst]
    rfl
  rw [hstart]
  constructor
  · intro heq c hc hlower
    by_contra hpair
    obtain ⟨hone, hup, hdown⟩ := h.lost (fun hb => hfit hb c hc) hlower hpair
    simp only [translateFromCommon, toLocalCase, toAntilocalCase, if_true] at heq
    split at heq
    · rw [stringDowncase, stringUpcase, List.map_map] at heq
      exact hdown (map_eq_self.mp heq c hc)
    split at heq
    · rw [stringUpcase, stringUpcase, List.map_map] at heq
      exact hup (map_eq_self.mp heq c hc)
    · exact hone (map_eq_self.mp heq c hc)
  · intro hpair
    have hcapital : ∀ c ∈ s, store base (ucd.charUpcase c) = ucd.charUpcase c ∧
        ucd.lowerCaseP (ucd.charUpcase c) = false ∧ ucd.charDowncase (ucd.charUpcase c) = c := by
      intro c hc
      by_cases hlower : ucd.lowerCaseP c
      · obtain ⟨hup, hsmall⟩ := hpair c hc hlower
        refine ⟨store_of_lt hsmall, Ucd.not_lower_of_upper hup, ?_⟩
        rcases h.lower c hlower with ⟨-, hback⟩ | ⟨hnot, -⟩
        · exact hback
        · rw [hup] at hnot
          cases hnot
      · have hsame : ucd.charUpcase c = c := by rw [Ucd.charUpcase, if_neg hlower]
        rw [hsame, Ucd.charDowncase, hupper c hc]
        exact ⟨store_of_lt fun hb => hfit hb c hc, eq_false_of_ne_true hlower, rfl⟩
    have hpos : 0 < stringCase ucd (stringUpcase ucd base s) 0 := by
      refine (stringCase_pos 0).mpr ⟨fun x hx => ?_,
        Or.inr ⟨Int.le_refl 0, _, List.mem_map_of_mem ha, ?_⟩⟩
      · obtain ⟨c, hc, rfl⟩ := List.mem_map.mp hx
        rw [(hcapital c hc).1]
        exact (hcapital c hc).2.1
      · rw [(hcapital a ha).1]
        exact (hpair a ha hlow).1
    rw [translateFromCommon, if_pos hpos, toLocalCase, if_pos rfl, stringDowncase, stringUpcase,
      List.map_map]
    refine map_eq_self.mpr fun c hc => ?_
    obtain ⟨hstore, -, hback⟩ := hcapital c hc
    rw [Function.comp_apply, hstore, hback]
    exact store_of_lt fun hb => hfit hb c hc

theorem again_iff (h : CaseLawful ucd) (hfit : base = true → ∀ c ∈ s, c < 256) :
    again ucd logical base s = s ↔ Kept ucd logical base s := by
  cases logical with
  | true => exact again_logical h hfit
  | false =>
    rcases Int.lt_trichotomy (stringCase ucd s 0) 0 with hneg | hzero | hpos
    · rw [again_lower h hfit hneg]
      exact ⟨fun hpair _ => hpair, fun hkept => hkept ((stringCase_neg 0).mp hneg).1⟩
    · have hsame : again ucd false base s = s := by
        simp [again, normalizeCase, translateString, translateToCommon, translateFromCommon,
          inLocalCaseP, inAntilocalCaseP, hzero]
      refine iff_of_true hsame fun hupper c hc hlower => absurd hzero (Int.ne_of_lt ?_)
      exact (stringCase_neg 0).mpr ⟨hupper, Or.inr ⟨Int.le_refl 0, c, hc, hlower⟩⟩
    · obtain ⟨hlower, -⟩ := (stringCase_pos 0).mp hpos
      refine iff_of_true (again_upper h hfit hpos) fun _ c hc hlow => ?_
      rw [hlower c hc] at hlow
      cases hlow

end

def strings (l : List Component) : List LispString :=
  l.filterMap fun
    | .string s => some s
    | _ => none

def plain (logical : Bool) (s : LispString) : Bool := logical || (s ≠ dot && s ≠ dotDot)

section
variable {ucd} {logical : Bool}

theorem strings_append (l m : List Component) : strings (l ++ m) = strings l ++ strings m :=
  List.filterMap_append

theorem strings_cons (c : Component) (l : List Component) :
    strings (c :: l) = strings [c] ++ strings l := strings_append [c] l

theorem plain_of_pushed {before : List Component} {s : LispString}
    (h : checkItem logical false before (.string s) = some (before ++ [.string s])) :
    plain logical s := by
  cases logical with
  | true => rfl
  | false =>
    simp only [checkItem, Bool.false_eq_true, if_false] at h
    split at h
    · split at h
      · cases h
      · simp at h
    next hdot =>
    split at h
    · split at h
      · cases h
      · simp at h
    next hdotDot => simp [plain, hdot, hdotDot]

theorem checkItem_strings {before p : List Component} {item : Component}
    (h : checkItem logical false before item = some p) :
    strings p = strings before ++ (strings [item]).filter (plain logical) := by
  cases checks_of_some h with
  | push =>
    rw [strings_append]
    cases item with
    | string s => rw [List.filter_eq_self.mpr (by simpa [strings] using plain_of_pushed h)]
    | _ => rfl
  | up hlogical =>
    subst hlogical
    exact strings_append before [.up]
  | dot hlogical =>
    subst hlogical
    exact (List.append_nil _).symm
  | pop hdelete => cases hdelete

theorem fold_strings {l before p : List Component}
    (h : l.foldlM (checkItem logical false) before = some p) :
    strings p = strings before ++ (strings l).filter (plain logical) := by
  induction l generalizing before with
  | nil =>
    cases h
    exact (List.append_nil _).symm
  | cons item l ih =>
    obtain ⟨q, hq, hrest⟩ := Option.bind_eq_some_iff.mp h
    rw [ih hrest, checkItem_strings hq, List.append_assoc, ← List.filter_append, ← strings_cons]

theorem check_strings {l p : List Component}
    (h : destructivelyCheckDirectory logical false l = some p) :
    strings p = (strings l).filter (plain logical) := by
  obtain ⟨rfl, rfl⟩ | ⟨first, rest, rfl, hfirst, hfold⟩ := checked_first h
  · rfl
  · have hstrings := fold_strings hfold
    rcases hfirst with rfl | rfl <;> exact hstrings

def Entry.again (ucd : Ucd) (logical : Bool) (e : Entry) : Entry :=
  let loc := normalizeCase logical .localCase
  translateComponentCase ucd (translateComponentCase ucd e loc .common) .common loc

theorem Entry.again_string {e : Entry} {s : LispString} (he : e.component = .string s) :
    (e.again ucd logical).component = .string (PathnameCase.again ucd logical e.base s) := by
  simp [Entry.again, translateComponentCase, he, PathnameCase.again]

theorem Entry.again_other {e : Entry} (he : ∀ s, e.component ≠ .string s) :
    e.again ucd logical = e := by
  have hsame : ∀ fromcase tocase, translateComponentCase ucd e fromcase tocase = e := by
    intro fromcase tocase
    rw [translateComponentCase]
    split
    · next s hs => exact absurd hs (he s)
    · rfl
  rw [Entry.again, hsame, hsame]

theorem Entry.again_strings (e : Entry) :
    (strings [(e.again ucd logical).component]).length = (strings [e.component]).length ∧
      (strings [(e.again ucd logical).component] = strings [e.component] →
        (e.again ucd logical).component = e.component) := by
  by_cases hs : ∃ s, e.component = .string s
  · obtain ⟨s, hs⟩ := hs
    rw [hs, again_string hs]
    refine ⟨rfl, fun h => ?_⟩
    simpa [strings] using h
  · rw [again_other fun s h => hs ⟨s, h⟩]
    exact ⟨rfl, fun _ => rfl⟩

theorem strings_length (d : List Entry) :
    (strings (d.map fun e => (e.again ucd logical).component)).length =
      (strings (d.map Entry.component)).length := by
  induction d with
  | nil => rfl
  | cons e d ih =>
    rw [List.map_cons, List.map_cons, strings_cons, strings_cons e.component,
      List.length_append, List.length_append, ih, e.again_strings.1]

theorem strings_inj {d : List Entry}
    (h : strings (d.map fun e => (e.again ucd logical).component) =
      strings (d.map Entry.component)) :
    ∀ e ∈ d, (e.again ucd logical).component = e.component := by
  induction d with
  | nil => exact fun e he => absurd he List.not_mem_nil
  | cons a d ih =>
    rw [List.map_cons, List.map_cons, strings_cons, strings_cons a.component] at h
    obtain ⟨hhead, htail⟩ := List.append_inj h a.again_strings.1
    exact List.forall_mem_cons.mpr ⟨a.again_strings.2 hhead, ih htail⟩

theorem check_translated {d : List Entry}
    (hchecked : destructivelyCheckDirectory logical false (d.map Entry.component) =
      some (d.map Entry.component)) :
    destructivelyCheckDirectory logical false
        (d.map fun e => (e.again ucd logical).component) = some (d.map Entry.component) ↔
      ∀ e ∈ d, (e.again ucd logical).component = e.component := by
  constructor
  · intro h
    have hfilter := check_strings h
    have hall : (strings (d.map fun e => (e.again ucd logical).component)).filter (plain logical) =
        strings (d.map fun e => (e.again ucd logical).component) := by
      refine List.filter_eq_self.mpr (List.length_filter_eq_length_iff.mp ?_)
      rw [← hfilter, strings_length]
    exact strings_inj (hall.symm.trans hfilter.symm)
  · intro h
    rw [List.map_congr_left h]
    exact hchecked

theorem Entry.again_iff (h : CaseLawful ucd) {e : Entry} (hfit : Fits e) :
    (e.again ucd logical).component = e.component ↔
      ∀ s, e.component = .string s → Kept ucd logical e.base s := by
  by_cases hs : ∃ s, e.component = .string s
  · obtain ⟨s, hs⟩ := hs
    rw [again_string hs, hs, Component.string.injEq,
      PathnameCase.again_iff h fun hb => hfit hb s hs]
    constructor
    · rintro hkept t ⟨⟩
      exact hkept
    · exact fun hkept => hkept s rfl
  · rw [again_other fun s h => hs ⟨s, h⟩]
    exact iff_of_true rfl fun s h => absurd ⟨s, h⟩ hs

end

section
variable (logical : Bool) (e : Entry) (fromcase tocase : Case)

theorem translated_valid :
    deviceP logical (translateComponentCase ucd e fromcase tocase).component =
        deviceP logical e.component ∧
      nameP (translateComponentCase ucd e fromcase tocase).component = nameP e.component ∧
      typeP (translateComponentCase ucd e fromcase tocase).component = typeP e.component := by
  rw [translateComponentCase]
  split
  · next s hs => simp [hs, deviceP, nameP, typeP, isString, unspecific]
  · exact ⟨rfl, rfl, rfl⟩

end

section
variable {ucd} {logicalHostnameP : LispString → Bool} {host device name type : Entry}
  {directory : Designator} {fromcase : Case} {q : Pathname}

end

namespace Stored

variable {ucd} {logicalHostnameP : LispString → Bool} (p : Stored logicalHostnameP)

theorem rebuild_eq : p.rebuild ucd .common =
    match destructivelyCheckDirectory p.logical false
      (p.directory.map fun e => (e.again ucd p.logical).component) with
    | none => .error .fileError
    | some checked => .ok ⟨p.logical,
        (translateComponentCase ucd p.host .common (normalizeCase p.logical .localCase)).component,
        (p.device.again ucd p.logical).component, checked,
        (p.name.again ucd p.logical).component, (p.type.again ucd p.logical).component⟩ := by
  have hcommon : (if p.logical then Case.common else normalizeCase p.logical .common) =
      .common := ite_self _
  have hdevice : deviceP p.logical (p.get ucd p.device .common).component :=
    (translated_valid ucd _ _ _ _).1.trans p.device_valid
  have hname : nameP (p.get ucd p.name .common).component :=
    (translated_valid ucd p.logical _ _ _).2.1.trans p.name_valid
  have htype : typeP (p.get ucd p.type .common).component :=
    (translated_valid ucd p.logical _ _ _).2.2.trans p.type_valid
  have hlist : (translateListCase ucd (p.pathnameDirectory ucd .common) .common
      (normalizeCase p.logical .localCase)).map Entry.component =
      p.directory.map fun e => (e.again ucd p.logical).component := by
    rw [translateListCase, pathnameDirectory, translateListCase, List.map_map, List.map_map]
    rfl
  simp only [rebuild, makePathname, p.hosted, hdevice, hname, htype, hcommon, directoryList, hlist,
    not_true, if_false]
  rfl

/-- Common case loses small letters of logical names and small letters without a capital. -/
theorem lossless_iff (h : CaseLawful ucd) : p.Lossless ucd ↔
    ∀ e ∈ p.device :: p.name :: p.type :: p.directory, ∀ s, e.component = .string s →
      Kept ucd p.logical e.base s := by
  have heach : ∀ e ∈ p.device :: p.name :: p.type :: p.directory,
      ((e.again ucd p.logical).component = e.component ↔
        ∀ s, e.component = .string s → Kept ucd p.logical e.base s) :=
    fun e he => e.again_iff h (p.fits e he)
  have hlossless : p.Lossless ucd ↔ ∀ e ∈ p.device :: p.name :: p.type :: p.directory,
      (e.again ucd p.logical).component = e.component := by
    rw [Lossless, rebuild_eq]
    constructor
    · rintro ⟨q, hq, hdevice, hdirectory, hname, htype⟩
      split at hq
      · cases hq
      · next checked hchecked =>
        cases hq
        obtain rfl : checked = _ := hdirectory
        simp only [List.forall_mem_cons]
        exact ⟨hdevice, hname, htype, (check_translated p.checked).mp hchecked⟩
    · simp only [List.forall_mem_cons]
      rintro ⟨hdevice, hname, htype, hdirectory⟩
      rw [(check_translated p.checked).mpr hdirectory]
      exact ⟨_, rfl, hdevice, rfl, hname, htype⟩
  rw [hlossless]
  exact forall₂_congr heach

end Stored

theorem asciiUcd_small {c : ℕ} (hc : asciiUcd.lowerCaseP c) :
    97 ≤ c ∧ c ≤ 122 ∧ asciiUcd.charUpcase c = c - 32 := by
  have hdata : asciiUcd.charData c = ⟨2, c - 32⟩ ∧ 97 ≤ c ∧ c ≤ 122 := by
    simp only [Ucd.lowerCaseP, asciiUcd] at hc ⊢
    split at hc
    · cases hc
    split at hc
    next hcapital hsmall => exact ⟨by rw [if_neg hcapital, if_pos hsmall], hsmall⟩
    · cases hc
  refine ⟨hdata.2.1, hdata.2.2, ?_⟩
  rw [Ucd.charUpcase, if_pos hc, hdata.1]

theorem asciiUcd_capital {c : ℕ} (h : 65 ≤ c ∧ c ≤ 90) :
    asciiUcd.upperCaseP c ∧ asciiUcd.charDowncase c = c + 32 := by
  have hdata : asciiUcd.charData c = ⟨0, c + 32⟩ := if_pos h
  have hup : asciiUcd.upperCaseP c := by
    rw [Ucd.upperCaseP, hdata]
    rfl
  rw [Ucd.charDowncase, if_pos hup, hdata]
  exact ⟨hup, rfl⟩

theorem asciiUcd_caseLawful : CaseLawful asciiUcd where
  upper := asciiUcd_lawful.upper
  lower := by
    intro c hc
    obtain ⟨hlow, hhigh, hup⟩ := asciiUcd_small hc
    obtain ⟨hcapital, hdown⟩ := @asciiUcd_capital (c - 32) (by omega)
    rw [hup, hdown]
    exact Or.inl ⟨hcapital, by omega⟩
  octet := by
    intro c _ hc
    by_cases hrange : 65 ≤ c ∧ c ≤ 90
    · rw [(asciiUcd_capital hrange).2]
      omega
    · have hsmall := (asciiUcd_lawful.upper c hc).1
      have hback := (asciiUcd_lawful.upper c hc).2
      obtain ⟨-, hhigh, -⟩ := asciiUcd_small hsmall
      omega
  wide := by
    intro c hlt hc hlarge
    obtain ⟨-, hhigh, hup⟩ := asciiUcd_small hc
    omega
  letterX := by decide

/-- SYS:Foo -/
def mixedName : Stored fun h => h = [83, 89, 83] where
  logical := true
  host := ⟨.string [83, 89, 83], true⟩
  device := ⟨unspecific, false⟩
  directory := []
  name := ⟨.string [70, 111, 111], true⟩
  type := ⟨.null, false⟩
  hosted := by decide
  device_valid := by decide
  name_valid := by decide
  type_valid := by decide
  checked := rfl
  fits := by simp [Fits, unspecific]

theorem mixedName_lossless_iff : CaseLawful asciiUcd ∧
    (mixedName.Lossless asciiUcd ↔
      ∀ e ∈ mixedName.device :: mixedName.name :: mixedName.type :: mixedName.directory,
        ∀ s, e.component = .string s → Kept asciiUcd mixedName.logical e.base s) :=
  ⟨asciiUcd_caseLawful, mixedName.lossless_iff asciiUcd_caseLawful⟩

/-- The capitals FOO come back. -/
theorem mixedName_lost : ¬ mixedName.Lossless asciiUcd := by
  rintro ⟨q, hq, -, -, hname, -⟩
  have hfoo : mixedName.rebuild asciiUcd .common = .ok ⟨true,
      .string [83, 89, 83], unspecific, [], .string [70, 79, 79], .null⟩ := by decide
  rw [hfoo] at hq
  cases hq
  cases hname

end PathnameCase
