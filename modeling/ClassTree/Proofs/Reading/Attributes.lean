import ClassTree.Proofs.Writing.Contents

namespace ClassTree

open Reader

variable {α σ : Type} {step : σ → String × Cursor → Except Error σ} {s s' s'' : σ}
  {attributes more : List RawAttribute} {entry : RawAttribute}

/-- Wherever the attributes are found, they lead from one state to another. -/
def Interprets (step : σ → String × Cursor → Except Error σ) (attributes : List RawAttribute)
    (s s' : σ) : Prop :=
  ∀ found, List.Forall₂ RawAttribute.FoundAs attributes found → found.foldlM step s = .ok s'

theorem interprets_nil : Interprets step [] s s := by
  intro found h
  obtain rfl := List.forall₂_nil_left_iff.mp h
  rfl

theorem interprets_cons
    (h : ∀ base, step s (entry.name, ⟨entry.info, 0, base⟩) = .ok s')
    (h' : Interprets step attributes s' s'') : Interprets step (entry :: attributes) s s'' := by
  intro found hf
  obtain ⟨first, rest, ⟨base, rfl⟩, hrest, rfl⟩ := List.forall₂_cons_left_iff.mp hf
  rw [List.foldlM_cons, h base]
  exact h' rest hrest

theorem interprets_one (h : ∀ base, step s (entry.name, ⟨entry.info, 0, base⟩) = .ok s') :
    Interprets step [entry] s s' :=
  interprets_cons h interprets_nil

theorem Interprets.append (h : Interprets step attributes s s') (h' : Interprets step more s' s'') :
    Interprets step (attributes ++ more) s s'' := by
  intro found hf
  have hfront : List.Forall₂ RawAttribute.FoundAs attributes (found.take attributes.length) :=
    (List.forall₂_take_append _ _ _ hf.flip).flip
  have hback : List.Forall₂ RawAttribute.FoundAs more (found.drop attributes.length) :=
    (List.forall₂_drop_append _ _ _ hf.flip).flip
  rw [← List.take_append_drop attributes.length found, List.foldlM_append, h _ hfront]
  exact h' _ hback

/-- Attributes that hold a value add it, and there are none without one. -/
theorem Holds.interprets {name : String} {reader : Reader α} {fits : α → Prop} {value : Option α}
    (h : Holds name reader fits value attributes) (hf : ∀ a ∈ value, fits a)
    (hnone : value = none → s' = s)
    (hsome : ∀ info a, value = some a → Cursor.parse info reader = .ok a →
      step s (name, info) = .ok s') : Interprets step attributes s s' := by
  cases value with
  | none =>
    obtain rfl : attributes = [] := h
    exact hnone rfl ▸ interprets_nil
  | some a =>
    obtain ⟨info, rfl, hreads⟩ := h
    exact interprets_one fun base => hsome _ a rfl ((hreads (hf a rfl)).parse base)

/-- Attributes that are not known are kept in order. -/
theorem interprets_kept {keep : List RawAttribute → σ}
    (h : ∀ entry ∈ attributes, ∀ before base,
      step (keep before) (entry.name, ⟨entry.info, 0, base⟩) = .ok (keep (before ++ [entry])))
    (before : List RawAttribute) :
    Interprets step attributes (keep before) (keep (before ++ attributes)) := by
  induction attributes generalizing before with
  | nil =>
    rw [List.append_nil]
    exact interprets_nil
  | cons entry attributes ih =>
    obtain ⟨hfirst, hrest⟩ := List.forall_mem_cons.mp h
    have hlater := ih hrest (before ++ [entry])
    rw [List.append_assoc, List.singleton_append] at hlater
    exact interprets_cons (hfirst before) hlater

end ClassTree
