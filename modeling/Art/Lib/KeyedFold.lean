import Mathlib.Data.List.AList
import Mathlib.Data.List.Sort
import Mathlib.Order.WithBot

/-!
# Folds of keyed joins

A loop that, for each element of a list, joins the element's contribution into a view at the
element's key, and may stop with an error. `foldlM_keyed_sup` is its invariant rule: run to the
end over elements with distinct keys, it joins each element's contribution in at its key
(`keyedContribution`). For an association list visited in key order (`entriesByKey`), the
contributions are the list's own view (`keyedContribution_entriesByKey`).

`mapBoth` maps a computation whose error carries the same state as its result, as a loop does
whose early `return false` keeps what it has changed so far.
-/

namespace Art

section Except

variable {σ τ γ ε : Type*}

/-- Maps the state a computation leaves, whether it ran to its end or stopped early. -/
def mapBoth (f : σ → τ) : Except σ σ → Except τ τ
  | .ok s => .ok (f s)
  | .error s => .error (f s)

theorem mapBoth_eq_ok {f : σ → τ} {e : Except σ σ} {r : τ} :
    mapBoth f e = .ok r ↔ ∃ s, e = .ok s ∧ f s = r := by
  cases e <;> simp [mapBoth]

theorem bind_eq_ok {α β : Type} {x : Except ε α} {f : α → Except ε β} {r : β} :
    x >>= f = .ok r ↔ ∃ a, x = .ok a ∧ f a = .ok r := by
  cases x <;> simp [bind, Except.bind]

theorem foldlM_cons_eq_ok {f : σ → γ → Except ε σ} {c : γ} {l : List γ} {s s' : σ} :
    (c :: l).foldlM f s = .ok s' ↔ ∃ s₁, f s c = .ok s₁ ∧ l.foldlM f s₁ = .ok s' := by
  rw [List.foldlM_cons]
  cases f s c <;> simp [bind, Except.bind]

end Except

section Invariant

variable {σ γ ε : Type*}

/-- The invariant rule of a loop that may stop early: if each step keeps `P`, indexed by the
elements done so far, a run to the end keeps it for the whole list. -/
theorem foldlM_invariant (P : List γ → σ → Prop) (step : σ → γ → Except ε σ) (l : List γ)
    (hstep : ∀ done c s s', (done ++ [c]).IsPrefix l → P done s → step s c = .ok s' →
      P (done ++ [c]) s')
    {s s' : σ} (hs : P [] s) (h : l.foldlM step s = .ok s') : P l s' := by
  -- the loop from any point: the elements done so far, then the rest
  suffices ∀ rest done s, done ++ rest = l → P done s → rest.foldlM step s = .ok s' → P l s' from
    this l [] s rfl hs h
  intro rest
  induction rest with
  | nil =>
    intro done s hl hs h
    cases h
    simpa [← hl] using hs
  | cons c rest ih =>
    intro done s hl hs h
    obtain ⟨s₁, h₁, hrest⟩ := foldlM_cons_eq_ok.1 h
    exact ih (done ++ [c]) s₁ (by simpa using hl)
      (hstep done c s s₁ ⟨rest, by simpa using hl⟩ hs h₁) hrest

end Invariant

section KeyedFold

variable {σ γ κ ε W : Type*} [DecidableEq κ] [SemilatticeSup W] [OrderBot W]
variable {key : γ → κ} {g : γ → W}

/-- What the elements of `l` contribute at key `k`: the first one's `g`, or `⊥`. -/
def keyedContribution (key : γ → κ) (g : γ → W) (l : List γ) (k : κ) : W :=
  ((l.find? fun c => k = key c).map g).getD ⊥

@[simp] theorem keyedContribution_nil : keyedContribution key g [] = ⊥ := rfl

theorem keyedContribution_eq_bot {l : List γ} {k : κ} (h : ∀ c ∈ l, key c ≠ k) :
    keyedContribution key g l k = ⊥ := by
  rw [keyedContribution, List.find?_eq_none.2 fun c hc he => h c hc (of_decide_eq_true he).symm]
  rfl

theorem keyedContribution_of_mem {l : List γ} (hnd : (l.map key).Nodup) {c : γ} (hc : c ∈ l) :
    keyedContribution key g l (key c) = g c := by
  induction l with
  | nil => simp at hc
  | cons c' l ih =>
    rw [List.map_cons, List.nodup_cons] at hnd
    rcases List.mem_cons.1 hc with rfl | hc
    · simp [keyedContribution]
    · have hne : key c ≠ key c' := fun he => hnd.1 (he ▸ List.mem_map_of_mem hc)
      simpa [keyedContribution, hne] using ih hnd.2 hc

theorem keyedContribution_append_singleton {l : List γ} {c : γ} (h : key c ∉ l.map key) :
    keyedContribution key g (l ++ [c]) = Function.update (keyedContribution key g l) (key c) (g c) := by
  funext k
  by_cases hk : k = key c
  · subst hk
    have hnone : (l.find? fun c' => key c = key c') = none :=
      List.find?_eq_none.2 fun c' hc' he => h (of_decide_eq_true he ▸ List.mem_map_of_mem hc')
    simp [keyedContribution, List.find?_append, hnone]
  · simp only [Function.update_of_ne hk, keyedContribution, List.find?_append, List.find?_singleton]
    cases l.find? fun c' => k = key c' <;> simp [hk]

theorem keyedContribution_set {l : List γ} (hnd : (l.map key).Nodup) {i : Nat} (hi : i < l.length)
    {c : γ} (hkey : key c = key l[i]) :
    keyedContribution key g (l.set i c) = Function.update (keyedContribution key g l) (key c) (g c) := by
  have hmap : (l.set i c).map key = l.map key := by
    apply List.ext_getElem (by simp)
    intro j _ _
    simp only [List.getElem_map, List.getElem_set]
    split_ifs with hij
    · subst hij
      exact hkey
    · rfl
  have hnd' : ((l.set i c).map key).Nodup := hmap ▸ hnd
  funext k
  by_cases hk : k = key c
  · subst hk
    rw [Function.update_self]
    exact keyedContribution_of_mem hnd' (List.mem_set hi c)
  · rw [Function.update_of_ne hk]
    by_cases hex : ∃ c' ∈ l, key c' = k
    · obtain ⟨c', hc', rfl⟩ := hex
      -- `c'` is not the element replaced, whose key is `c`'s
      obtain ⟨j, hj, rfl⟩ := List.getElem_of_mem hc'
      have hji : i ≠ j := fun hij => hk (by subst hij; exact hkey.symm)
      have hmem : l[j] ∈ l.set i c :=
        List.mem_iff_getElem.2 ⟨j, by simpa using hj, by rw [List.getElem_set_ne hji]⟩
      rw [keyedContribution_of_mem hnd' hmem, keyedContribution_of_mem hnd hc']
    · simp only [not_exists, not_and] at hex
      rw [keyedContribution_eq_bot hex, keyedContribution_eq_bot fun c' hc' he => ?_]
      rcases List.mem_or_eq_of_mem_set hc' with hc' | rfl
      exacts [hex c' hc' he, hk he.symm]

theorem keyedContribution_congr {l : List γ} {g' : γ → W} (h : ∀ c ∈ l, g c = g' c) :
    keyedContribution key g l = keyedContribution key g' l := by
  funext k
  unfold keyedContribution
  cases hf : l.find? fun c => k = key c with
  | none => rfl
  | some c => simp [h c (List.mem_of_find?_eq_some hf)]

theorem keyedContribution_mono {l : List γ} {g' : γ → W} (h : ∀ c ∈ l, g c ≤ g' c) :
    keyedContribution key g l ≤ keyedContribution key g' l := by
  intro k
  unfold keyedContribution
  cases hf : l.find? fun c => k = key c with
  | none => exact le_rfl
  | some c => exact h c (List.mem_of_find?_eq_some hf)

omit [DecidableEq κ] in
/-- In a list with distinct keys, an element's key is not among those before it. -/
theorem notMem_of_isPrefix {l done : List γ} (hnd : (l.map key).Nodup) {c : γ}
    (hpre : (done ++ [c]).IsPrefix l) : key c ∉ done.map key := fun hmem =>
  (List.nodup_append.1 (by simpa using hnd.sublist (hpre.sublist.map key))).2.2 _ hmem _
    List.mem_cons_self rfl

/-- One more element joined in at its key, on top of those done before it. -/
theorem update_sup_keyedContribution {done : List γ} {c : γ} (hc : key c ∉ done.map key)
    {v₀ v : κ → W} (hv : v = v₀ ⊔ keyedContribution key g done) :
    Function.update v (key c) (v (key c) ⊔ g c) = v₀ ⊔ keyedContribution key g (done ++ [c]) := by
  subst hv
  rw [keyedContribution_append_singleton hc]
  funext k
  by_cases hk : k = key c
  · subst hk
    have hbot : keyedContribution key g done (key c) = ⊥ :=
      keyedContribution_eq_bot fun c' hc' he => hc (he ▸ List.mem_map_of_mem hc')
    simp [hbot]
  · simp [Function.update_of_ne hk]

/-- The invariant rule of a loop of keyed joins: if each step keeps `P` and joins its element's
`g` into the view at the element's key, leaving the other keys alone, then a run to the end
over elements with distinct keys keeps `P` and joins every element's `g` in. -/
theorem foldlM_keyed_sup (P : σ → Prop) (Q : γ → Prop) (view : σ → κ → W) (key : γ → κ)
    (g : γ → W) (step : σ → γ → Except ε σ)
    (hstep : ∀ s c s', P s → Q c → step s c = .ok s' →
      P s' ∧ view s' = Function.update (view s) (key c) (view s (key c) ⊔ g c))
    {l : List γ} (hnd : (l.map key).Nodup) (hq : ∀ c ∈ l, Q c) {s s' : σ} (hs : P s)
    (h : l.foldlM step s = .ok s') : P s' ∧ view s' = view s ⊔ keyedContribution key g l :=
  foldlM_invariant (fun done s' => P s' ∧ view s' = view s ⊔ keyedContribution key g done) step l
    (fun done c s₁ s₂ hpre ⟨hs₁, hv₁⟩ h₁ => by
      obtain ⟨hs₂, hv₂⟩ := hstep s₁ c s₂ hs₁ (hq c (hpre.subset (by simp))) h₁
      exact ⟨hs₂, hv₂.trans (update_sup_keyedContribution (notMem_of_isPrefix hnd hpre) hv₁)⟩)
    ⟨hs, by simp⟩ h

end KeyedFold

section AList

variable {κ β W : Type*}

/-- The entries of an association list in the order `le` sorts their keys: how an ordered map is
visited. -/
def entriesByKey (le : κ → κ → Bool) (m : AList fun _ : κ => β) : List (Σ _ : κ, β) :=
  m.entries.mergeSort fun a b => le a.1 b.1

theorem perm_entriesByKey (le : κ → κ → Bool) (m : AList fun _ : κ => β) :
    (entriesByKey le m).Perm m.entries :=
  List.mergeSort_perm _ _

theorem nodup_map_fst_entriesByKey (le : κ → κ → Bool) (m : AList fun _ : κ => β) :
    ((entriesByKey le m).map Sigma.fst).Nodup :=
  (List.perm_nodupKeys (perm_entriesByKey le m)).2 m.nodupKeys

variable [DecidableEq κ]

/-- The view of an association list: `f` of its entry at each key, `⊥` where it has none. -/
def lookupView (f : β → W) (m : AList fun _ : κ => β) (k : κ) : WithBot W :=
  match m.lookup k with
  | some b => ↑(f b)
  | none => ⊥

theorem lookupView_of_lookup {f : β → W} {m : AList fun _ : κ => β} {k : κ} {b : β}
    (h : m.lookup k = some b) : lookupView f m k = ↑(f b) := by
  simp [lookupView, h]

theorem lookupView_of_lookup_eq_none {f : β → W} {m : AList fun _ : κ => β} {k : κ}
    (h : m.lookup k = none) : lookupView f m k = ⊥ := by
  simp [lookupView, h]

@[simp] theorem lookupView_empty (f : β → W) : lookupView f (∅ : AList fun _ : κ => β) = ⊥ := by
  funext k
  exact lookupView_of_lookup_eq_none (AList.lookup_empty k)

theorem lookupView_insert (f : β → W) (m : AList fun _ : κ => β) (k : κ) (b : β) :
    lookupView f (m.insert k b) = Function.update (lookupView f m) k ↑(f b) := by
  funext k'
  by_cases hk : k' = k
  · subst hk
    rw [Function.update_self, lookupView_of_lookup (AList.lookup_insert m)]
  · rw [Function.update_of_ne hk, lookupView, AList.lookup_insert_ne hk, lookupView]

/-- Finding an entry, or a default whose view is `⊥`, then joining into it, joins into the view. -/
theorem lookupView_sup_coe [SemilatticeSup W] [OrderBot W] {f : β → W} {b₀ : β} (h₀ : f b₀ = ⊥)
    (m : AList fun _ : κ => β) (k : κ) (x : W) :
    lookupView f m k ⊔ ↑x = ↑(f ((m.lookup k).getD b₀) ⊔ x) := by
  cases h : m.lookup k with
  | none => simp [lookupView_of_lookup_eq_none h, h₀]
  | some b => simp [lookupView_of_lookup h, WithBot.coe_sup]

theorem lookupView_congr {f f' : β → W} {m : AList fun _ : κ => β}
    (h : ∀ k b, m.lookup k = some b → f b = f' b) : lookupView f m = lookupView f' m := by
  funext k
  cases hl : m.lookup k with
  | none => rw [lookupView_of_lookup_eq_none hl, lookupView_of_lookup_eq_none hl]
  | some b => rw [lookupView_of_lookup hl, lookupView_of_lookup hl, h k b hl]

/-- Visiting an association list in key order contributes its own view. -/
theorem keyedContribution_entriesByKey [SemilatticeSup W] (f : β → W) (le : κ → κ → Bool)
    (m : AList fun _ : κ => β) :
    keyedContribution Sigma.fst (fun e => (↑(f e.2) : WithBot W)) (entriesByKey le m) =
      lookupView f m := by
  funext k
  have hperm := perm_entriesByKey le m
  rw [keyedContribution, ← List.map_dlookup_eq_find,
    List.perm_dlookup k ((List.perm_nodupKeys hperm).2 m.nodupKeys) hperm, lookupView,
    AList.lookup]
  cases m.entries.dlookup k <;> rfl

end AList

end Art
