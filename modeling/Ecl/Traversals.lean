import Mathlib.Data.List.Forall2

/-! Hashes computed by traversing a value: a node hands its children to the traversal, a leaf
its tokens to a mixing function. Values related by an equality that relates children hash
alike, for every mixing, exactly when the leaves met in both have the same tokens. -/
namespace Traversals

variable {ι α τ H : Type} (children : ι → α → Option (ι × List α)) (leaf : ι → α → List τ)

/-- The traversal with an accumulator; none when the budget of n levels ran out. -/
def hash (mix : H → τ → H) : ℕ → ι → H → α → Option H
  | 0, _, _, _ => none
  | n + 1, d, h, x => match children d x with
    | none => some ((leaf d x).foldl mix h)
    | some (d', cs) => cs.foldlM (fun h c => hash mix n d' h c) h

def concatM (f : α → Option (List τ)) : List α → Option (List τ)
  | [] => some []
  | c :: cs => (f c).bind fun t => (concatM f cs).map (t ++ ·)

def tokens : ℕ → ι → α → Option (List τ)
  | 0, _, _ => none
  | n + 1, d, x => match children d x with
    | none => some (leaf d x)
    | some (d', cs) => concatM (tokens n d') cs

inductive Visits : ι → α → α → ι → α → α → Prop where
  | here (d x y) : Visits d x y d x y
  | child {d x y d' cs cs' c c' e u v} (hx : children d x = some (d', cs))
      (hy : children d y = some (d', cs')) (hc : (c, c') ∈ cs.zip cs')
      (h : Visits d' c c' e u v) : Visits d x y e u v

def Agree (d : ι) (x y : α) : Prop :=
  ∀ e u v, Visits children d x y e u v → children e u = none → leaf e u = leaf e v

structure SameShape (R : ι → α → α → Prop) : Prop where
  leaf_shape : ∀ d x y, R d x y → children d x = none → children d y = none
  node_shape : ∀ d x y d' cs, R d x y → children d x = some (d', cs) →
    ∃ cs', children d y = some (d', cs') ∧ List.Forall₂ (R d') cs cs'

structure Congruence (R : ι → α → α → Prop) : Prop extends SameShape children R where
  leaf_length : ∀ d x y, R d x y → children d x = none → (leaf d x).length = (leaf d y).length

variable {children leaf} {R : ι → α → α → Prop} {mix : H → τ → H}

theorem foldlM_concat {f : H → α → Option H} {g : α → Option (List τ)} {cs : List α}
    (hf : ∀ c ∈ cs, ∀ h, f h c = (g c).map (fun ts => ts.foldl mix h)) (h : H) :
    cs.foldlM f h = (concatM g cs).map (fun ts => ts.foldl mix h) := by
  induction cs generalizing h with
  | nil => rfl
  | cons c cs ih =>
    simp only [List.foldlM_cons, Option.bind_eq_bind, hf c (by simp), concatM]
    cases g c with
    | none => rfl
    | some t =>
      simp only [Option.map_some, Option.bind_some]
      rw [ih (fun c' hc => hf c' (by simp [hc]))]
      cases concatM g cs with
      | none => rfl
      | some ts => simp [List.foldl_append]

theorem hash_eq_tokens : ∀ (n : ℕ) (d : ι) (h : H) (x : α),
    hash children leaf mix n d h x =
      (tokens children leaf n d x).map (fun ts => ts.foldl mix h) := by
  intro n
  induction n with
  | zero => intro d h x; rfl
  | succ n ih =>
    intro d h x
    simp only [hash, tokens]
    cases children d x with
    | none => rfl
    | some node => exact foldlM_concat (fun c _ h => ih node.1 h c) h

theorem concatM_congr {f : α → Option (List τ)} {cs cs' : List α}
    (h : List.Forall₂ (fun c c' => f c = f c') cs cs') : concatM f cs = concatM f cs' := by
  induction h with
  | nil => rfl
  | cons hc _ ih => simp only [concatM, hc, ih]

theorem forall₂_zip {P : α → α → Prop} {cs cs' : List α} (h : List.Forall₂ P cs cs') :
    List.Forall₂ (fun c c' => P c c' ∧ (c, c') ∈ cs.zip cs') cs cs' := by
  induction h with
  | nil => exact .nil
  | cons hc _ ih =>
    refine .cons ⟨hc, by simp⟩ (ih.imp fun c c' h' => ⟨h'.1, ?_⟩)
    rw [List.zip_cons_cons]
    exact List.mem_cons_of_mem _ h'.2

theorem tokens_of_agree (hR : SameShape children R) : ∀ {n : ℕ} {d : ι} {x y : α},
    R d x y → Agree children leaf d x y →
    tokens children leaf n d x = tokens children leaf n d y := by
  intro n
  induction n with
  | zero => intro d x y _ _; rfl
  | succ n ih =>
    intro d x y hxy hagree
    cases hx : children d x with
    | none =>
      have hy := hR.leaf_shape d x y hxy hx
      simp only [tokens, hx, hy, hagree d x y (.here d x y) hx]
    | some node =>
      obtain ⟨d', cs⟩ := node
      obtain ⟨cs', hy, hall⟩ := hR.node_shape d x y d' cs hxy hx
      simp only [tokens, hx, hy]
      apply concatM_congr
      refine (forall₂_zip hall).imp fun c c' hc => ?_
      exact ih hc.1 fun e u v hv => hagree e u v (.child hx hy hc.2 hv)

theorem tokens_length (hR : Congruence children leaf R) : ∀ {n : ℕ} {d : ι} {x y : α},
    R d x y → (tokens children leaf n d x).map List.length =
      (tokens children leaf n d y).map List.length := by
  intro n
  induction n with
  | zero => intro d x y _; rfl
  | succ n ih =>
    intro d x y hxy
    cases hx : children d x with
    | none =>
      have hy := hR.leaf_shape d x y hxy hx
      simp only [tokens, hx, hy, Option.map_some, hR.leaf_length d x y hxy hx]
    | some node =>
      obtain ⟨d', cs⟩ := node
      obtain ⟨cs', hy, hall⟩ := hR.node_shape d x y d' cs hxy hx
      simp only [tokens, hx, hy]
      clear hx hy
      induction hall with
      | nil => rfl
      | @cons c c' cs cs' hc _ ihs =>
        have hlen := ih hc
        simp only [concatM]
        cases ht : tokens children leaf n d' c <;> cases ht' : tokens children leaf n d' c' <;>
          simp [ht, ht'] at hlen ⊢
        cases hs : concatM (tokens children leaf n d') cs <;>
          cases hs' : concatM (tokens children leaf n d') cs' <;> simp [hs, hs'] at ihs ⊢
        omega

theorem concatM_split {f : α → Option (List τ)} {cs cs' : List α} {ts : List τ}
    (hlen : List.Forall₂ (fun c c' => (f c).map List.length = (f c').map List.length) cs cs')
    (h : concatM f cs = some ts) (h' : concatM f cs' = some ts) :
    ∀ p ∈ cs.zip cs', ∃ t, f p.1 = some t ∧ f p.2 = some t := by
  induction hlen generalizing ts with
  | nil => simp
  | @cons c c' cs cs' hc _ ih =>
    simp only [concatM, Option.bind_eq_some_iff, Option.map_eq_some_iff] at h h'
    obtain ⟨t, ht, s, hs, rfl⟩ := h
    obtain ⟨t', ht', s', hs', happ⟩ := h'
    have hlt : t'.length = t.length := by simpa [ht, ht'] using hc.symm
    obtain ⟨rfl, rfl⟩ := List.append_inj happ hlt
    simp only [List.zip_cons_cons, List.forall_mem_cons]
    exact ⟨⟨t', ht, ht'⟩, ih hs hs'⟩

theorem visits_related (hR : SameShape children R) {d e : ι} {x y u v : α}
    (hv : Visits children d x y e u v) (hxy : R d x y) : R e u v := by
  induction hv with
  | here => exact hxy
  | child hx hy hc _ ih =>
    obtain ⟨cs', hy', hall⟩ := hR.node_shape _ _ _ _ _ hxy hx
    rw [hy] at hy'
    cases hy'
    exact ih ((List.forall₂_iff_zip.mp hall).2 hc)

theorem visits_trans {d e f : ι} {x y u v s t : α} (h : Visits children d x y e u v)
    (h' : Visits children e u v f s t) : Visits children d x y f s t := by
  induction h with
  | here => exact h'
  | child hx hy hc _ ih => exact .child hx hy hc (ih h')

theorem agree_of_tokens (hR : Congruence children leaf R) {d : ι} {x y : α} {n : ℕ}
    {ts : List τ} (hxy : R d x y) (hx : tokens children leaf n d x = some ts)
    (hy : tokens children leaf n d y = some ts) : Agree children leaf d x y := by
  intro e u v hv
  induction hv generalizing n ts with
  | here d x y =>
    intro hleaf
    cases n with
    | zero => simp [tokens] at hx
    | succ n =>
      simp only [tokens, hleaf, hR.leaf_shape d x y hxy hleaf, Option.some.injEq] at hx hy
      exact hx.trans hy.symm
  | @child d x y d' cs cs' c c' e u v hcx hcy hc _ ih =>
    cases n with
    | zero => simp [tokens] at hx
    | succ n =>
      obtain ⟨cs'', hcy', hall⟩ := hR.node_shape d x y d' cs hxy hcx
      rw [hcy] at hcy'
      cases hcy'
      simp only [tokens, hcx, hcy] at hx hy
      have hlen := hall.imp fun a b hab => tokens_length hR (n := n) hab
      obtain ⟨t, ht, ht'⟩ := concatM_split hlen hx hy (c, c') hc
      exact ih ((List.forall₂_iff_zip.mp hall).2 hc) ht ht'

theorem foldl_append (ts acc : List τ) : ts.foldl (fun h t => h ++ [t]) acc = acc ++ ts := by
  induction ts generalizing acc with
  | nil => simp
  | cons t ts ih => simp [ih]

theorem hash_eq_iff (hR : Congruence children leaf R) {d : ι} {x y : α} (hxy : R d x y)
    (hends : ∃ n ts, tokens children leaf n d x = some ts) :
    (∀ (H : Type) (mix : H → τ → H) (n : ℕ) (h : H),
      hash children leaf mix n d h x = hash children leaf mix n d h y) ↔
    Agree children leaf d x y := by
  constructor
  · intro hsame
    obtain ⟨n, ts, hts⟩ := hends
    have hfree := hsame (List τ) (fun h t => h ++ [t]) n []
    simp only [hash_eq_tokens, foldl_append, List.nil_append, Option.map_id'] at hfree
    exact agree_of_tokens hR hxy hts (hfree.symm.trans hts)
  · intro hagree H mix n h
    rw [hash_eq_tokens, hash_eq_tokens, tokens_of_agree hR.toSameShape hxy hagree]

theorem visited_hash_eq_iff (leaf : ι → α → List τ) (hR : SameShape children R) {d : ι} {x y : α} (hxy : R d x y) :
    (∀ e u v, Visits children d x y e u v → ∀ (H : Type) (mix : H → τ → H) (n : ℕ) (h : H),
      hash children leaf mix n e h u = hash children leaf mix n e h v) ↔
    Agree children leaf d x y := by
  constructor
  · intro hsame e u v hv hu
    have hleaf := hsame e u v hv (List τ) (fun h t => h ++ [t]) 1 []
    have hv' := hR.leaf_shape e u v (visits_related hR hv hxy) hu
    simpa only [hash, hu, hv', foldl_append, List.nil_append, Option.some.injEq] using hleaf
  · intro hagree e u v hv H mix n h
    rw [hash_eq_tokens, hash_eq_tokens, tokens_of_agree hR (visits_related hR hv hxy)]
    exact fun f s t hv' => hagree f s t (visits_trans hv hv')

end Traversals
