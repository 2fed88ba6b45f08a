import ClassTree.Proofs.Outcome
import ClassTree.Subroutine.Basic

namespace ClassTree.Subroutine

variable {ε : Type} {next : Nat → Except ε (List Nat)} {marked final : Array Bool}
  {pending : List Nat}

/-- Control leads from marked places only to marked and to pending ones. -/
def ClosedUpTo (next : Nat → Except ε (List Nat)) (marked : Array Bool) (pending : List Nat) :
    Prop :=
  ∀ i, marked.getD i false = true → ∃ found, next i = .ok found ∧
    ∀ j ∈ found, j < marked.size → marked.getD j false = true ∨ j ∈ pending

theorem getD_set {i j : Nat} (hi : i < marked.size) :
    (marked.set i true).getD j false = true ↔ j = i ∨ marked.getD j false = true := by
  by_cases hj : i = j
  · subst hj
    simp
  · simp [hj, Ne.symm hj]

theorem reach_closed (h : ClosedUpTo next marked pending)
    (hr : reach next marked pending = .ok final) :
    ClosedUpTo next final [] ∧ final.size = marked.size := by
  fun_induction reach next marked pending with
  | case1 marked =>
    obtain rfl := Except.ok.inj hr
    exact ⟨h, rfl⟩
  | case2 marked i pending hi fault hn => cases hr
  | case3 marked i pending free found hn ih =>
    have hi := free.1
    suffices hn : ClosedUpTo next (marked.set i true) (found ++ pending) by
      obtain ⟨hc, hs⟩ := ih hn hr
      exact ⟨hc, hs.trans (Array.size_set hi)⟩
    intro j hj
    rcases (getD_set hi).mp hj with rfl | hj
    · exact ⟨found, hn, fun l hl _ => .inr (List.mem_append_left _ hl)⟩
    · obtain ⟨found', hn', hf'⟩ := h j hj
      refine ⟨found', hn', ?_⟩
      intro l hl hs
      rcases hf' l hl (by simpa using hs) with hm | hm
      · exact .inl ((getD_set hi).mpr (.inr hm))
      · rcases List.mem_cons.mp hm with rfl | hm
        · exact .inl ((getD_set hi).mpr (.inl rfl))
        · exact .inr (List.mem_append_right _ hm)
  | case4 marked i pending hi ih =>
    refine ih ?_ hr
    intro j hj
    obtain ⟨found, hn, hf⟩ := h j hj
    refine ⟨found, hn, ?_⟩
    intro l hl hs
    rcases hf l hl hs with hm | hm
    · exact .inl hm
    · rcases List.mem_cons.mp hm with rfl | hm
      · -- A pending place that is not taken is marked already.
        have hm : marked.getD l false = true := by
          by_contra hf
          exact hi ⟨hs, by simpa [hs] using hf⟩
        exact .inl hm
      · exact .inr hm

def Extends (marked final : Array Bool) : Prop :=
  marked.size = final.size ∧ ∀ i, marked.getD i false = true → final.getD i false = true

theorem Extends.refl (marked : Array Bool) : Extends marked marked :=
  ⟨rfl, fun _ h => h⟩

theorem Extends.trans {middle : Array Bool} (h : Extends marked middle)
    (h' : Extends middle final) : Extends marked final :=
  ⟨h.1.trans h'.1, fun i hi => h'.2 i (h.2 i hi)⟩

theorem extends_set {i : Nat} (hi : i < marked.size) : Extends marked (marked.set i true) :=
  ⟨by simp, fun _ h => (getD_set hi).mpr (.inr h)⟩

/-- What is pending gets marked, and nothing that is marked is lost. -/
theorem reach_marks (hr : reach next marked pending = .ok final) :
    Extends marked final ∧ ∀ i ∈ pending, i < marked.size → final.getD i false = true := by
  fun_induction reach next marked pending with
  | case1 marked =>
    obtain rfl := Except.ok.inj hr
    exact ⟨.refl _, nofun⟩
  | case2 marked i pending hi fault hn => cases hr
  | case3 marked i pending free found hn ih =>
    obtain ⟨hext, hall⟩ := ih hr
    have hset := extends_set free.1
    refine ⟨hset.trans hext, fun j hj hs => ?_⟩
    rcases List.mem_cons.mp hj with rfl | hj
    · exact hext.2 _ ((getD_set free.1).mpr (.inl rfl))
    · exact hall j (List.mem_append_right _ hj) (by simpa using hs)
  | case4 marked i pending hi ih =>
    obtain ⟨hext, hall⟩ := ih hr
    refine ⟨hext, fun j hj hs => ?_⟩
    rcases List.mem_cons.mp hj with rfl | hj
    · refine hext.2 _ ?_
      by_contra hf
      exact hi ⟨hs, by simpa [hs] using hf⟩
    · exact hall j hj hs

namespace Outline

variable {outline : Outline}

/-- Members for all elements of the code, with all that follows any of them. -/
structure Closed (outline : Outline) (members : Array Bool) : Prop where
  size : members.size = outline.code.size
  closed : ClosedUpTo outline.following members []

theorem Closed.weaken (h : outline.Closed marked) (pending : List Nat) :
    ClosedUpTo outline.following marked pending := by
  intro i hi
  obtain ⟨found, hn, hf⟩ := h.closed i hi
  exact ⟨found, hn, fun j hj hs => .inl ((hf j hj hs).resolve_right List.not_mem_nil)⟩

theorem Closed.reach (h : outline.Closed marked)
    (hr : Subroutine.reach outline.following marked pending = .ok final) :
    outline.Closed final := by
  obtain ⟨hc, hs⟩ := reach_closed (h.weaken pending) hr
  exact ⟨hs.trans h.size, hc⟩

theorem Closed.reachHandler (h : outline.Closed marked) {handler : TryCatch}
    (hr : outline.reachHandler marked handler = .ok final) : outline.Closed final := by
  obtain ⟨entry, -, hr⟩ := bind_eq_ok.mp hr
  split at hr
  · exact pure_eq_ok.mp hr ▸ h
  · obtain ⟨start, -, hr⟩ := bind_eq_ok.mp hr
    obtain ⟨stop, -, hr⟩ := bind_eq_ok.mp hr
    split at hr
    · exact h.reach hr
    · exact pure_eq_ok.mp hr ▸ h

theorem Closed.reachHandlers {marked : Array Bool} (h : outline.Closed marked)
    (hr : outline.reachHandlers marked = .ok final) : outline.Closed final := by
  rw [Outline.reachHandlers] at hr
  split at hr
  · cases hr
  · rename_i found hf
    have hc : outline.Closed found := foldlM_ok (fun _ _ _ _ h hr => h.reachHandler hr) h hf
    split at hr
    · exact hc.reachHandlers hr
    · exact Except.ok.inj hr ▸ hc
termination_by marked.count false

theorem closed_membersFrom {start : Nat} (hm : outline.membersFrom start = .ok final) :
    outline.Closed final := by
  obtain ⟨marked, hr, hm⟩ := bind_eq_ok.mp hm
  refine Closed.reachHandlers (Closed.reach ⟨by simp, ?_⟩ hr) hm
  intro i hi
  rw [Array.getD_eq_getD_getElem?, Array.getElem?_replicate] at hi
  split at hi <;> cases hi

theorem extends_reachHandler {handler : TryCatch}
    (hr : outline.reachHandler marked handler = .ok final) : Extends marked final := by
  obtain ⟨entry, -, hr⟩ := bind_eq_ok.mp hr
  split at hr
  · exact pure_eq_ok.mp hr ▸ .refl _
  · obtain ⟨start, -, hr⟩ := bind_eq_ok.mp hr
    obtain ⟨stop, -, hr⟩ := bind_eq_ok.mp hr
    split at hr
    · exact (reach_marks hr).1
    · exact pure_eq_ok.mp hr ▸ .refl _

theorem extends_foldlM_reachHandler {handlers : List TryCatch}
    (hr : handlers.foldlM outline.reachHandler marked = .ok final) : Extends marked final :=
  foldlM_ok (P := Extends marked) (fun _ _ _ _ h hs => h.trans (extends_reachHandler hs)) (.refl _)
    hr

theorem extends_reachHandlers {marked : Array Bool}
    (hr : outline.reachHandlers marked = .ok final) : Extends marked final := by
  rw [Outline.reachHandlers] at hr
  split at hr
  · cases hr
  · rename_i found hf
    have hext := extends_foldlM_reachHandler hf
    split at hr
    · exact hext.trans (extends_reachHandlers hr)
    · exact Except.ok.inj hr ▸ hext
termination_by marked.count false

/-- What starts a subroutine belongs to it. -/
theorem start_membersFrom {start : Nat} (hm : outline.membersFrom start = .ok final)
    (hs : start < outline.code.size) : final.getD start false = true := by
  obtain ⟨marked, hr, hm⟩ := bind_eq_ok.mp hm
  exact (extends_reachHandlers hm).2 _ ((reach_marks hr).2 start (by simp) (by simpa using hs))

/-- Control can continue with what comes next, be it after the return from a call. -/
def continues (insn : Instruction Label) : Bool :=
  insn.opcode?.all fun op => !op.endsBlock

theorem following_ok {i : Nat} {insn : Instruction Label} {found : List Nat}
    (hat : outline.code[i]? = some insn) (h : outline.following i = .ok found) :
    ∃ targets : List Nat,
      found = (if continues insn && i + 1 < outline.code.size then [i + 1] else [])
        ++ targets.reverse := by
  unfold following at h
  rw [hat] at h
  simp only at h
  split at h
  · obtain ⟨targets, -, h⟩ := bind_eq_ok.mp h
    exact ⟨targets, (pure_eq_ok.mp h).symm⟩
  · obtain ⟨targets, -, h⟩ := bind_eq_ok.mp h
    exact ⟨targets, (pure_eq_ok.mp h).symm⟩

/-- Where control continues with the next element, that one belongs to the subroutine too. -/
theorem Closed.continued (h : outline.Closed marked) {i : Nat} {insn : Instruction Label}
    (hi : marked.getD i false = true) (hat : outline.code[i]? = some insn)
    (hc : continues insn = true) (hlt : i + 1 < outline.code.size) :
    marked.getD (i + 1) false = true := by
  obtain ⟨found, hf, hm⟩ := h.closed i hi
  obtain ⟨targets, rfl⟩ := following_ok hat hf
  exact (hm (i + 1) (by simp [hc, hlt]) (h.size ▸ hlt)).resolve_right List.not_mem_nil

/-- The body of a method and all of its subroutines are closed. -/
theorem closed_subroutines {body : Subroutine} {called : List Subroutine}
    (h : outline.subroutines = .ok (body, called)) :
    ∀ subroutine ∈ body :: called, outline.Closed subroutine.members := by
  obtain ⟨members, hm, h⟩ := bind_eq_ok.mp h
  obtain ⟨found, hf, h⟩ := bind_eq_ok.mp h
  obtain ⟨rfl, rfl⟩ := Prod.mk.inj (pure_eq_ok.mp h)
  intro subroutine hs
  rcases List.mem_cons.mp hs with rfl | hs
  · exact closed_membersFrom hm
  · obtain ⟨entry, -, he⟩ := exists_of_mem_mapM hf hs
    obtain ⟨start, -, he⟩ := bind_eq_ok.mp he
    obtain ⟨members, hm, he⟩ := bind_eq_ok.mp he
    exact pure_eq_ok.mp he ▸ closed_membersFrom hm

/-- The body of a method is what runs first. -/
theorem claims_body {body : Subroutine} {called : List Subroutine}
    (h : outline.subroutines = .ok (body, called)) (hs : 0 < outline.code.size) :
    body.claims 0 = true := by
  obtain ⟨members, hm, h⟩ := bind_eq_ok.mp h
  obtain ⟨found, hf, h⟩ := bind_eq_ok.mp h
  obtain ⟨rfl, -⟩ := Prod.mk.inj (pure_eq_ok.mp h)
  exact start_membersFrom hm hs

end Outline
end ClassTree.Subroutine
