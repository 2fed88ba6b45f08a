import ClassTree.Proofs.Subroutine.Continuation
import ClassTree.Proofs.Subroutine.Traces

namespace ClassTree.Subroutine

variable {job : Job} {body : Subroutine} {copies : List Copy} {code : List (Instruction Label)}
  {copy : Copy} {k i p : Nat} {insn : Instruction Label}

/-- What a copy emits, with the instruction that is seen when that runs. -/
def Copy.traced (method : Method) (copy : Copy) : List (Instruction Label × Option Nat) :=
  copy.pieces.zipIdx.flatMap fun entry => entry.1.map fun insn => (insn, seenAt method entry.2)

/-- The instruction of the method that is seen at a place of the inlined code. -/
def origin (method : Method) (copies : List Copy) (p : Nat) : Option Nat :=
  (copies.flatMap (Copy.traced method))[p]?.bind Prod.snd

theorem map_fst_flatMap_zipIdx {α β : Type} (f : Nat → β) (pieces : List (List α)) (n : Nat) :
    ((pieces.zipIdx n).flatMap fun entry => entry.1.map fun a => (a, f entry.2)).map Prod.fst =
      pieces.flatten := by
  induction pieces generalizing n with
  | nil => rfl
  | cons piece pieces ih => simp [ih, Function.comp_def]

theorem map_fst_traced (method : Method) (copies : List Copy) :
    (copies.flatMap (Copy.traced method)).map Prod.fst = copies.flatMap Copy.code := by
  rw [List.map_flatMap]
  congr 1
  funext copy
  exact map_fst_flatMap_zipIdx _ _ _

theorem length_flatMap_traced (method : Method) (copies : List Copy) :
    (copies.flatMap (Copy.traced method)).length = (copies.flatMap Copy.code).length := by
  rw [← map_fst_traced method, List.length_map]

theorem length_traced_take (method : Method) (copy : Copy) (i : Nat) :
    (({ copy with pieces := copy.pieces.take i } : Copy).traced method).length =
      (copy.pieces.take i).flatten.length := by
  rw [← map_fst_flatMap_zipIdx (seenAt method) _ 0, List.length_map]
  rfl

/-- All that a copy emits for an instruction is seen as that instruction. -/
theorem origin_start (method : Method) (hk : copies[k]? = some copy)
    {piece : List (Instruction Label)} (hp : copy.pieces[i]? = some piece) {n : Nat}
    (hn : n < piece.length) : origin method copies (start copies k i + n) = seenAt method i := by
  obtain ⟨hlt, hget⟩ := List.getElem?_eq_some_iff.mp hk
  obtain ⟨hlt', hget'⟩ := List.getElem?_eq_some_iff.mp hp
  have hcopies : copies.flatMap (Copy.traced method) =
      (copies.take k).flatMap (Copy.traced method) ++ (copy.traced method ++
        (copies.drop (k + 1)).flatMap (Copy.traced method)) := by
    rw [← hget, ← List.flatMap_cons, List.getElem_cons_drop, ← List.flatMap_append,
      List.take_append_drop]
  have hpieces : copy.pieces = copy.pieces.take i ++ piece :: copy.pieces.drop (i + 1) := by
    rw [← hget', List.getElem_cons_drop, List.take_append_drop]
  have htraced : copy.traced method =
      ({ copy with pieces := copy.pieces.take i } : Copy).traced method ++
        (piece.map (fun insn => (insn, seenAt method i)) ++
          ((copy.pieces.drop (i + 1)).zipIdx (i + 1)).flatMap fun entry =>
            entry.1.map fun insn => (insn, seenAt method entry.2)) := by
    conv_lhs => rw [Copy.traced, hpieces]
    rw [List.zipIdx_append, List.flatMap_append, List.zipIdx_cons, List.flatMap_cons]
    simp [Copy.traced, Nat.min_eq_left (Nat.le_of_lt hlt')]
  have hstart : start copies k i = ((copies.take k).flatMap (Copy.traced method)).length +
      (({ copy with pieces := copy.pieces.take i } : Copy).traced method).length := by
    rw [length_flatMap_traced, length_traced_take, start, hk]
    rfl
  rw [origin, hstart, hcopies, htraced, Nat.add_assoc,
    List.getElem?_append_right (Nat.le_add_right _ _), Nat.add_sub_cancel_left, List.append_assoc,
    List.getElem?_append_right (Nat.le_add_right _ _), Nat.add_sub_cancel_left, List.append_assoc,
    List.getElem?_append_left (by simpa using hn), List.getElem?_map,
    List.getElem?_eq_getElem hn]
  rfl

/-- What a place has, with what is seen there, is emitted by a copy for some element. -/
theorem Copied.emitted (h : Copied job body copies code) {method : Method}
    (hm : method = job.outline.method) (hp : code[p]? = some insn) :
    ∃ copy ∈ copies, ∃ i element piece, method.body.code[i]? = some element ∧
      Piece job copy.nesting i element piece ∧ insn ∈ piece ∧
      origin method copies p = seenAt method i := by
  subst hm
  rw [h.code, ← map_fst_traced job.outline.method, List.getElem?_map,
    Option.map_eq_some_iff] at hp
  obtain ⟨⟨found, seen⟩, hp, rfl⟩ := hp
  obtain ⟨copy, hc, hin⟩ := List.mem_flatMap.mp (List.mem_of_getElem? hp)
  obtain ⟨⟨piece, i⟩, hi, hin⟩ := List.mem_flatMap.mp hin
  obtain ⟨insn, hmem, he⟩ := List.mem_map.mp hin
  obtain ⟨rfl, rfl⟩ := Prod.mk.inj he
  have hi := List.mk_mem_zipIdx_iff_getElem?.mp hi
  have hlen := (h.pieces copy hc).length_eq
  rw [List.length_zipIdx] at hlen
  have hlt : i < job.outline.method.body.code.length := hlen ▸ (List.getElem?_eq_some_iff.mp hi).1
  obtain ⟨k, hk⟩ := List.getElem?_of_mem hc
  obtain ⟨piece', hi', hpiece⟩ := h.piece hk (List.getElem?_eq_getElem hlt)
  obtain rfl := Option.some.inj (hi.symm.trans hi')
  refine ⟨copy, hc, i, _, piece, List.getElem?_eq_getElem hlt, hpiece, hmem, ?_⟩
  rw [origin, hp]
  rfl

/-- Markers are not seen. -/
theorem Copied.origin_marker (h : Copied job body copies code) (hp : code[p]? = some insn)
    (hm : insn.isMarker = true) : origin job.outline.method copies p = none := by
  obtain ⟨copy, -, i, element, piece, hi, hpiece, hin, ho⟩ := h.emitted rfl hp
  rw [ho]
  cases hpiece with
  | label | shared | frame => exact seenAt_marker hi rfl
  | hidden => cases hin
  | ret => exact seenAt_return hi
  | call => exact seenAt_call hi
  | copy _ _ _ _ _ resolved =>
    obtain rfl := List.mem_singleton.mp hin
    exact seenAt_marker hi (isMarker_resolve resolved ▸ hm)

/-- What is seen of inlined code are the copies of instructions. The rest are markers, the `null`s
in place of return addresses, and the jumps into subroutines and out of them. -/
structure Tracked (method : Method) (code : List (Instruction Label)) (origin : Nat → Option Nat) :
    Prop where
  copied : ∀ {p i : Nat} {insn : Instruction Label}, code[p]? = some insn → origin p = some i →
    ∃ original f, method.body.code[i]? = some original ∧ insn = original.mapLabels f
  inserted : ∀ {p : Nat} {insn : Instruction Label}, code[p]? = some insn → origin p = none →
    insn.isMarker = true ∨ insn = .plain .aconstNull ∨ ∃ target, insn = .jump .goto target

theorem Copied.tracked (h : Copied job body copies code) :
    Tracked job.outline.method code (origin job.outline.method copies) := by
  constructor
  · intro p i insn hp ho
    obtain ⟨copy, -, i', element, piece, hi, hpiece, hin, hs⟩ := h.emitted rfl hp
    rw [hs] at ho
    cases hpiece with
    | label | shared | frame => cases (seenAt_marker hi rfl).symm.trans ho
    | hidden => cases hin
    | ret => cases (seenAt_return hi).symm.trans ho
    | call => cases (seenAt_call hi).symm.trans ho
    | copy _ _ _ _ _ resolved =>
      obtain rfl := List.mem_singleton.mp hin
      obtain ⟨_, -, hr⟩ := bind_eq_ok.mp resolved
      obtain rfl := eq_of_seenAt ho
      exact ⟨element, _, hi, (pure_eq_ok.mp hr).symm⟩
  · intro p insn hp ho
    obtain ⟨copy, -, i, element, piece, hi, hpiece, hin, hs⟩ := h.emitted rfl hp
    rw [hs] at ho
    cases hpiece with
    | label =>
      obtain rfl := List.mem_singleton.mp hin
      exact .inl rfl
    | shared | hidden | frame => cases hin
    | ret =>
      obtain rfl := List.mem_singleton.mp hin
      exact .inr (.inr ⟨_, rfl⟩)
    | call =>
      rcases List.mem_cons.mp hin with rfl | hin
      · exact .inr (.inl rfl)
      rcases List.mem_cons.mp hin with rfl | hin
      · exact .inr (.inr ⟨_, rfl⟩)
      · obtain rfl := List.mem_singleton.mp hin
        exact .inl rfl
    | copy _ _ _ noReturn noCall resolved =>
      obtain rfl := List.mem_singleton.mp hin
      refine .inl ?_
      rw [isMarker_resolve resolved]
      by_contra hreal
      rw [seenAt_real hi (by simpa using hreal) noCall noReturn] at ho
      cases ho

end ClassTree.Subroutine
