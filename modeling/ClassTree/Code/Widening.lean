import ClassTree.Code.Layout
import ClassTree.Method

namespace ClassTree.Code

open Pool MonadAttach

/-- Code in which every jump reaches its target, and its layout. -/
structure LaidOut where
  code : List (Instruction Label)
  labels : Nat
  offsets : Offsets

def maxLength : Nat := 0xFFFF

def isJumpBeyond (offsets : Offsets) (positions : Flow.Positions) (index : Nat) :
    Instruction Label → Bool
  | .jump op target =>
    let distance : Int := offsets.getD (positions.getD target 0) 0 - offsets.getD index 0
    !op.isWideJump && (distance < -0x8000 || 0x7FFF < distance)
  | _ => false

/-- A jump that has no wide form of its own. -/
def isConditional : Instruction Label → Bool
  | .jump op _ => op != .goto && op != .jsr
  | _ => false

def isWide : Instruction Label → Bool
  | .jump op _ => op.isWideJump
  | _ => false

/-- Puts what replaces a jump in front of code. A condition then jumps over a single
instruction. -/
def widened (insn : Instruction Label) (rest : Body) : Body :=
  match insn with
  | .jump .goto target => { rest with code := .jump .gotoWide target :: rest.code }
  | .jump .jsr target => { rest with code := .jump .jsrWide target :: rest.code }
  | .jump op target =>
    let (skip, rest) := rest.freshLabel
    { rest with
      code := .jump op.negated skip :: .jump .gotoWide target :: .label skip :: rest.code }
  | other => { rest with code := other :: rest.code }

def widenIf (far : Instruction Label × Nat → Bool) (entry : Instruction Label × Nat)
    (rest : Body) : Body :=
  if far entry then widened entry.1 rest else { rest with code := entry.1 :: rest.code }

/-- Widens the jumps that are far. Labels are handed out from the last one of them on. -/
def widenFar (far : Instruction Label × Nat → Bool) (body : Body) : Body :=
  body.code.zipIdx.foldr (widenIf far) ⟨[], body.labels⟩

/-- Whatever is far is a jump that is not wide yet. -/
def Narrow (far : Instruction Label × Nat → Bool) : Prop :=
  ∀ entry, far entry = true → ∃ op target, entry.1 = .jump op target ∧ op.isWideJump = false

theorem narrow_isJumpBeyond (offsets : Offsets) (positions : Flow.Positions) :
    Narrow fun entry => isJumpBeyond offsets positions entry.2 entry.1 := by
  rintro ⟨insn, index⟩ h
  cases insn with
  | jump op target =>
    obtain ⟨hop, -⟩ := Bool.and_eq_true_iff.mp h
    exact ⟨op, target, rfl, by simpa using hop⟩
  | _ => cases h

theorem countP_widened (op : Opcode) (target : Label) (rest : Body) :
    rest.code.countP isWide < (widened (.jump op target) rest).code.countP isWide := by
  unfold widened
  split
  · simp [isWide, Opcode.isWideJump]
  · simp [isWide, Opcode.isWideJump]
  · rename_i op target _ _ _
    have hwide : isWide (.jump .gotoWide target) = true := by simp [isWide, Opcode.isWideJump]
    simp only [Body.freshLabel, List.countP_cons, hwide, if_true]
    omega
  · rename_i hno
    exact absurd rfl (hno op target)

theorem countP_widenIf {far : Instruction Label × Nat → Bool} (hn : Narrow far)
    (entry : Instruction Label × Nat) (rest : Body) :
    [entry.1].countP isWide + [entry].countP far + rest.code.countP isWide ≤
      (widenIf far entry rest).code.countP isWide := by
  unfold widenIf
  split
  · rename_i hfar
    obtain ⟨insn, index⟩ := entry
    obtain ⟨op, target, rfl, hop⟩ := hn _ hfar
    have := countP_widened op target rest
    have hnarrow : isWide (.jump op target) = false := hop
    simp only [List.countP_cons, List.countP_nil, hfar, hnarrow]
    simp
    omega
  · rename_i hnear
    simp only [List.countP_cons, List.countP_nil, hnear]
    simp
    omega

/-- There is a wide jump more for each that was far. -/
theorem countP_widenFar {far : Instruction Label × Nat → Bool} (hn : Narrow far) (body : Body) :
    body.code.countP isWide + body.code.zipIdx.countP far ≤
      (widenFar far body).code.countP isWide := by
  suffices h : ∀ (code : List (Instruction Label)) (start : Nat),
      code.countP isWide + (code.zipIdx start).countP far ≤
        ((code.zipIdx start).foldr (widenIf far) ⟨[], body.labels⟩).code.countP isWide from
    h body.code 0
  intro code
  induction code with
  | nil => exact fun _ => Nat.le_refl 0
  | cons insn code ih =>
    intro start
    have hrest := ih (start + 1)
    have hstep := countP_widenIf hn (insn, start)
      ((code.zipIdx (start + 1)).foldr (widenIf far) ⟨[], body.labels⟩)
    rw [List.zipIdx_cons, List.foldr_cons, List.countP_cons, List.countP_cons]
    simp only [List.countP_cons, List.countP_nil] at hstep
    omega

theorem countP_le_size {offset n : Nat} {insn : Instruction Label}
    (h : CanReturn (size offset insn) n) : [insn].countP isWide ≤ n := by
  cases insn with
  | jump op target =>
    obtain rfl := LawfulMonadAttach.eq_of_canReturn_pure h
    change _ ≤ if op.isWideJump then 5 else 3
    have hle : [Instruction.jump op target].countP isWide ≤ 1 := List.countP_le_length
    split <;> omega
  | _ => exact Nat.zero_le n

theorem countP_le_length {code : List (Instruction Label)} {offsets : Offsets}
    (h : CanReturn (layout code) offsets) : code.countP isWide ≤ offsets.length := by
  suffices hfold : ∀ (code : List (Instruction Label)) (start found : Offsets × Nat),
      CanReturn (code.foldlM (fun (offsets, offset) insn =>
        return (offsets.push offset, offset + (← size offset insn))) start : Build _) found →
      start.2 + code.countP isWide ≤ found.2 by
    obtain ⟨found, hfound, hp⟩ := LawfulMonadAttach.canReturn_bind_imp' h
    obtain rfl := LawfulMonadAttach.eq_of_canReturn_pure hp
    have := hfold code _ _ hfound
    simpa [Offsets.length] using this
  intro code
  induction code with
  | nil =>
    intro start found h
    obtain rfl := LawfulMonadAttach.eq_of_canReturn_pure h
    exact Nat.le_refl _
  | cons insn code ih =>
    intro start found h
    obtain ⟨next, hnext, hrest⟩ := LawfulMonadAttach.canReturn_bind_imp' h
    obtain ⟨n, hn, hp⟩ := LawfulMonadAttach.canReturn_bind_imp' hnext
    obtain rfl := LawfulMonadAttach.eq_of_canReturn_pure hp
    have hle := ih _ _ hrest
    have hsize := countP_le_size hn
    rw [← List.singleton_append, List.countP_append]
    dsimp only at hle
    omega

/-- Every wide jump takes a byte at least, and there are only so many. -/
theorem room_decreases {far : Instruction Label × Nat → Bool} (hn : Narrow far) {body : Body}
    {offsets : Offsets} (h : CanReturn (layout body.code) offsets)
    (hshort : ¬ maxLength < offsets.length) (hfar : body.code.zipIdx.any far = true) :
    maxLength + 1 - (widenFar far body).code.countP isWide <
      maxLength + 1 - body.code.countP isWide := by
  have hle := countP_le_length h
  have hmore := countP_widenFar hn body
  have hpos : 0 < body.code.zipIdx.countP far := List.countP_pos_iff.mpr (List.any_eq_true.mp hfar)
  omega

/-- Repeats until every jump reaches. With frames in the code, conditions are not widened, since
the frame that the skipped instruction would need is not known. -/
def widen (method : String) (hasFrames : Bool) (body : Body) : Build LaidOut :=
  pbind (layout body.code) fun offsets _ =>
    if _ : maxLength < offsets.length then
      throw (.inconsistent (.codeTooLarge method offsets.length))
    else
      let positions := Flow.Positions.ofCode body.code
      let far (entry : Instruction Label × Nat) : Bool :=
        isJumpBeyond offsets positions entry.2 entry.1
      if _ : body.code.zipIdx.any far = true then
        if hasFrames && body.code.zipIdx.any (fun entry => far entry && isConditional entry.1) then
          throw (.inconsistent (.jumpOutOfRange method))
        else widen method hasFrames (widenFar far body)
      else return ⟨body.code, body.labels, offsets⟩
termination_by maxLength + 1 - body.code.countP isWide
decreasing_by exact room_decreases (narrow_isJumpBeyond _ _) ‹_› ‹_› ‹_›

end ClassTree.Code
