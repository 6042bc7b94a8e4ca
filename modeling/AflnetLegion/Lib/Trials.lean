import Mathlib.Data.List.Infix

/-! Computations that try inputs one after the other and can be given up after each of them. -/

namespace Trials

variable {σ β ι ε : Type}

/-- Exactly these inputs are tried, in this order, or the first ones if the computation is
given up. It does not fail in any other way. -/
def Tries (log : σ → List β) (given_up : ε) (s : σ) (inputs : List β) (r : Except (ε × σ) σ) (Q : σ → Prop) : Prop :=
  match r with
  | .ok t => log t = log s ++ inputs ∧ Q t
  | .error (cause, t) => cause = given_up ∧ ∃ tried, tried <+: inputs ∧ log t = log s ++ tried

/-- Every input that is tried satisfies `P`. This holds as well if the loop is given up, unlike
what is said about its end. -/
def TriesOnly (log : σ → List β) (given_up : ε) (s : σ) (P : β → Prop) (r : Except (ε × σ) σ) (Q : σ → Prop) : Prop :=
  match r with
  | .ok t => (∃ tried, (∀ x ∈ tried, P x) ∧ log t = log s ++ tried) ∧ Q t
  | .error (cause, t) => cause = given_up ∧ ∃ tried, (∀ x ∈ tried, P x) ∧ log t = log s ++ tried

variable {log : σ → List β} {given_up : ε} {s : σ} {inputs inputs' : List β} {r : Except (ε × σ) σ} {P : β → Prop}
  {Q R : σ → Prop} {f : σ → Except (ε × σ) σ}

theorem Tries.pure (h : Q s) : Tries log given_up s [] (pure s : Except (ε × σ) σ) Q := ⟨(List.append_nil _).symm, h⟩

/-- Less may be claimed of the state in the end. What was tried is not affected. -/
theorem Tries.mono (h : Tries log given_up s inputs r Q) (himp : ∀ t, Q t → R t) : Tries log given_up s inputs r R := by
  cases r with
  | ok t => exact ⟨h.1, himp t h.2⟩
  | error e => exact h

/-- The inputs of two parts follow one another. If the first part is given up, the inputs of the
second one are not tried at all. -/
theorem Tries.bind (h : Tries log given_up s inputs r Q) (hf : ∀ t, Q t → Tries log given_up t inputs' (f t) R) :
    Tries log given_up s (inputs ++ inputs') (r >>= f) R := by
  cases r with
  | error e =>
    obtain ⟨hcause, tried, hstarts, hlog⟩ := h
    exact ⟨hcause, tried, hstarts.trans (List.prefix_append ..), hlog⟩
  | ok t =>
    obtain ⟨hlog, hQ⟩ := h
    have hrest := hf t hQ
    change Tries log given_up s (inputs ++ inputs') (f t) R
    cases hrun : f t with
    | ok u =>
      rw [hrun] at hrest
      exact ⟨by rw [hrest.1, hlog, List.append_assoc], hrest.2⟩
    | error e =>
      rw [hrun] at hrest
      obtain ⟨hcause, tried, hstarts, hlog'⟩ := hrest
      refine ⟨hcause, inputs ++ tried, ?_, by rw [hlog', hlog, List.append_assoc]⟩
      exact (List.prefix_append_right_inj inputs).mpr hstarts

/-- A part that tries nothing comes last. -/
theorem Tries.before (h : Tries log given_up s inputs r Q) (hf : ∀ t, Q t → Tries log given_up t [] (f t) R) :
    Tries log given_up s inputs (r >>= f) R := by
  have hboth := h.bind hf
  rwa [List.append_nil] at hboth

/-- The rule of a loop, with the state after each round. -/
theorem Tries.foldlM {body : σ → ι → Except (ε × σ) σ} {items : List ι} (tried : ι → List β) (I : List ι → σ → Prop)
    (hbody : ∀ i rest t, i ∈ items → I (i :: rest) t → Tries log given_up t (tried i) (body t i) (I rest)) (hs : I items s) :
    Tries log given_up s (items.flatMap tried) (items.foldlM body s) (I []) := by
  induction items generalizing s with
  | nil => exact Tries.pure hs
  | cons i items ih =>
    rw [List.foldlM_cons, List.flatMap_cons]
    exact (hbody i items s (List.mem_cons_self ..) hs).bind fun t ht =>
      ih (fun j rest u hj => hbody j rest u (List.mem_cons_of_mem _ hj)) ht

/-- The rule of a loop over the numbers below `n`. -/
theorem Tries.range {body : σ → Nat → Except (ε × σ) σ} {n : Nat} (tried : Nat → List β) (I : Nat → σ → Prop)
    (hbody : ∀ i t, i < n → I i t → Tries log given_up t (tried i) (body t i) (I (i + 1))) (hs : I 0 s) :
    Tries log given_up s ((List.range n).flatMap tried) ((List.range n).foldlM body s) (I n) := by
  induction n with
  | zero => exact Tries.pure hs
  | succ n ih =>
    have hfirst := ih fun i t hi => hbody i t (Nat.lt_succ_of_lt hi)
    have hlast : [n].flatMap tried = tried n := by rw [List.flatMap_singleton]
    rw [List.range_succ, List.flatMap_append, hlast, List.foldlM_append]
    refine hfirst.bind fun t ht => ?_
    rw [List.foldlM_cons]
    exact (hbody n t (Nat.lt_succ_self n) ht).before fun u hu => Tries.pure hu

/-- A list of inputs that all satisfy `P` is a run that tries such inputs only. -/
theorem Tries.only (h : Tries log given_up s inputs r Q) (hall : ∀ x ∈ inputs, P x) : TriesOnly log given_up s P r Q := by
  cases r with
  | ok t => exact ⟨⟨inputs, hall, h.1⟩, h.2⟩
  | error e =>
    obtain ⟨hcause, tried, hstarts, hlog⟩ := h
    exact ⟨hcause, tried, fun x hx => hall x (hstarts.subset hx), hlog⟩

/-- A computation that only returns has tried nothing, in particular nothing wrong. -/
theorem TriesOnly.pure (h : Q s) : TriesOnly log given_up s P (pure s : Except (ε × σ) σ) Q :=
  (Tries.pure h).only fun _ hx => absurd hx List.not_mem_nil

theorem TriesOnly.mono (h : TriesOnly log given_up s P r Q) (himp : ∀ t, Q t → R t) : TriesOnly log given_up s P r R := by
  cases r with
  | ok t => exact ⟨h.1, himp t h.2⟩
  | error e => exact h

/-- Both parts try inputs that satisfy `P`, and so does the whole. -/
theorem TriesOnly.bind (h : TriesOnly log given_up s P r Q) (hf : ∀ t, Q t → TriesOnly log given_up t P (f t) R) :
    TriesOnly log given_up s P (r >>= f) R := by
  cases r with
  | error e => exact h
  | ok t =>
    obtain ⟨⟨tried, htried, hlog⟩, hQ⟩ := h
    have hrest := hf t hQ
    have hjoin : ∀ tried', (∀ x ∈ tried', P x) → ∀ x ∈ tried ++ tried', P x := fun tried' htried' x hx =>
      (List.mem_append.mp hx).elim (htried x) (htried' x)
    change TriesOnly log given_up s P (f t) R
    cases hrun : f t with
    | ok u =>
      rw [hrun] at hrest
      obtain ⟨⟨tried', htried', hlog'⟩, hR⟩ := hrest
      exact ⟨⟨_, hjoin tried' htried', by rw [hlog', hlog, List.append_assoc]⟩, hR⟩
    | error e =>
      rw [hrun] at hrest
      obtain ⟨hcause, tried', htried', hlog'⟩ := hrest
      exact ⟨hcause, _, hjoin tried' htried', by rw [hlog', hlog, List.append_assoc]⟩

/-- The invariant rule of a loop. -/
theorem TriesOnly.foldlM {body : σ → ι → Except (ε × σ) σ} {items : List ι} (I : List ι → σ → Prop)
    (hbody : ∀ i rest t, i ∈ items → I (i :: rest) t → TriesOnly log given_up t P (body t i) (I rest)) (hs : I items s) :
    TriesOnly log given_up s P (items.foldlM body s) (I []) := by
  induction items generalizing s with
  | nil => exact TriesOnly.pure hs
  | cons i items ih =>
    rw [List.foldlM_cons]
    exact (hbody i items s (List.mem_cons_self ..) hs).bind fun t ht =>
      ih (fun j rest u hj => hbody j rest u (List.mem_cons_of_mem _ hj)) ht

/-- The invariant rule of a loop over the numbers below `n`, where the inputs need not be
listed. -/
theorem TriesOnly.range {body : σ → Nat → Except (ε × σ) σ} {n : Nat} (I : Nat → σ → Prop)
    (hbody : ∀ i t, i < n → I i t → TriesOnly log given_up t P (body t i) (I (i + 1))) (hs : I 0 s) :
    TriesOnly log given_up s P ((List.range n).foldlM body s) (I n) := by
  induction n with
  | zero => exact TriesOnly.pure hs
  | succ n ih =>
    have hfirst := ih fun i t hi => hbody i t (Nat.lt_succ_of_lt hi)
    rw [List.range_succ, List.foldlM_append]
    refine hfirst.bind fun t ht => ?_
    rw [List.foldlM_cons]
    exact (hbody n t (Nat.lt_succ_self n) ht).bind fun u hu => TriesOnly.pure hu

end Trials
