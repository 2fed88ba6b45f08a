import ClassTree.Proofs.Subroutine.Membership
import ClassTree.Subroutine.Inlining

namespace ClassTree.Subroutine

inductive Piece (job : Job) (nesting : Nesting) (i : Nat) :
    Instruction Label → List (Instruction Label) → Prop
  | label {label clone : Label} (stands : nesting.inner.labels[label]? = some clone) :
      Piece job nesting i (.label label) [.label clone]
  /-- The label that stands for this one is already there. -/
  | shared {label clone : Label} (stands : nesting.inner.labels[label]? = some clone) :
      Piece job nesting i (.label label) []
  | hidden {insn : Instruction Label} (element : insn.placed? = none)
      (other : nesting.owns i = false) : Piece job nesting i insn []
  | frame {locals stack : List (VerificationType String Label)} (own : nesting.owns i = true) :
      Piece job nesting i (.frame locals stack) []
  | ret {slot : UInt16} {target : Label} (own : nesting.owns i = true)
      (back : nesting.inner.returnLabel = some target) :
      Piece job nesting i (.var .ret slot) [.jump .goto target]
  | call {target entry back : Label} {called : Nesting} (own : nesting.owns i = true)
      (known : called.inner.subroutine ∈ job.subroutines)
      (starts : called.inner.subroutine.entry = some target)
      (nested : called.outer = nesting.inner :: nesting.outer)
      (enters : job.jumpLabel called target = .ok entry)
      (returns : called.inner.returnLabel = some back) :
      Piece job nesting i (.jump .jsr target)
        [.plain .aconstNull, .jump .goto entry, .label back]
  | copy {insn copied : Instruction Label} (own : nesting.owns i = true)
      (element : insn.placed? = none) (noFrame : insn.isFrame = false)
      (noReturn : ∀ slot, insn ≠ .var .ret slot) (noCall : callTarget? insn = none)
      (resolved : job.resolve nesting insn = .ok copied) : Piece job nesting i insn [copied]

variable {job : Job} {nesting : Nesting}

/-- The instance at the place of a label has what stands for it. -/
theorem jumpLabel_ok {label clone : Label} {index : Nat} {owner : Instance}
    (hp : job.outline.position label = .ok index) (ho : nesting.owner? index = some owner)
    (hl : owner.labels[label]? = some clone) : job.jumpLabel nesting label = .ok clone := by
  rw [Job.jumpLabel, hp]
  simp only [bind, Except.bind, ho, Option.bind_some, hl]
  rfl

theorem instantiate_ok {supply supply' : Nat} {subroutine : Subroutine} {caller : Option Nesting}
    (h : job.instantiate supply subroutine caller = .ok (nesting, supply')) :
    nesting.inner.subroutine = subroutine ∧
      nesting.inner.returnLabel = caller.map (fun _ => ⟨supply⟩) ∧
      nesting.outer = (caller.map fun caller => caller.inner :: caller.outer).getD [] := by
  unfold Job.instantiate at h
  by_cases hw : caller.any (·.isWithin subroutine.entry) = true
  · rw [if_pos hw] at h
    cases h
  · rw [if_neg hw] at h
    cases caller with
    | none =>
      obtain ⟨rfl, -⟩ := Prod.mk.inj (pure_eq_ok.mp h)
      exact ⟨rfl, rfl, rfl⟩
    | some caller =>
      obtain ⟨rfl, -⟩ := Prod.mk.inj (pure_eq_ok.mp h)
      exact ⟨rfl, rfl, rfl⟩

/-- What an emission has after an element: a piece of code, and instances for calls from it. -/
structure Emits (job : Job) (nesting : Nesting) (state state' : Emission)
    (piece : List (Instruction Label)) : Prop where
  code : state'.code = piece.reverse ++ state.code
  calls : ∃ new, state'.calls = new ++ state.calls ∧ ∀ called ∈ new,
    called.inner.subroutine ∈ job.subroutines ∧ called.outer = nesting.inner :: nesting.outer

theorem emitCall_ok {state state' : Emission} {target : Label} {i : Nat}
    (own : nesting.owns i = true) (h : job.emitCall nesting target state = .ok state') :
    ∃ piece, Piece job nesting i (.jump .jsr target) piece ∧
      Emits job nesting state state' piece := by
  unfold Job.emitCall at h
  split at h
  · cases h
  · rename_i subroutine hs
    obtain ⟨⟨called, supply⟩, hi, h⟩ := bind_eq_ok.mp h
    obtain ⟨entry, he, h⟩ := bind_eq_ok.mp h
    obtain rfl := pure_eq_ok.mp h
    obtain ⟨hsub, hback, hout⟩ := instantiate_ok hi
    have hmem := List.mem_of_find?_eq_some hs
    have hent := List.find?_some hs
    refine ⟨_, .call own (hsub ▸ hmem) (by simpa [hsub] using hent) hout he hback, ?_, ?_⟩
    · simp [hback]
    · exact ⟨[called], rfl, by simpa using ⟨hsub ▸ hmem, hout⟩⟩

theorem emitOwned_ok {state state' : Emission} {insn : Instruction Label} {i : Nat}
    (own : nesting.owns i = true) (element : insn.placed? = none)
    (h : job.emitOwned nesting insn state = .ok state') :
    ∃ piece, Piece job nesting i insn piece ∧ Emits job nesting state state' piece := by
  unfold Job.emitOwned at h
  split at h
  · split at h
    · rename_i target hback
      obtain rfl := pure_eq_ok.mp h
      exact ⟨_, .ret own hback, rfl, [], rfl, by simp⟩
    · cases h
  · exact emitCall_ok own h
  · obtain rfl := pure_eq_ok.mp h
    exact ⟨_, .frame own, rfl, [], rfl, by simp⟩
  · rename_i hret hcall hframe
    obtain ⟨copied, hr, h⟩ := bind_eq_ok.mp h
    obtain rfl := pure_eq_ok.mp h
    refine ⟨_, .copy own element ?_ ?_ ?_ hr, rfl, [], rfl, by simp⟩
    · cases insn with
      | frame locals stack => exact absurd rfl (hframe locals stack)
      | _ => rfl
    · rintro slot rfl
      exact hret slot rfl
    · unfold callTarget?
      split
      · rename_i target
        exact absurd rfl (hcall target)
      · rfl

theorem emitElement_ok {state state' : Emission} {insn : Instruction Label} {i : Nat}
    (h : job.emitElement nesting state (insn, i) = .ok state') :
    ∃ piece, Piece job nesting i insn piece ∧ Emits job nesting state state' piece := by
  unfold Job.emitElement at h
  split at h
  · rename_i label hl
    obtain ⟨clone, hc, h⟩ := bind_eq_ok.mp h
    have hstands : nesting.inner.labels[label]? = some clone := by
      unfold Job.rangeLabel at hc
      split at hc
      · rename_i hs
        exact Except.ok.inj hc ▸ hs
      · cases hc
    obtain rfl : insn = .label label := by
      cases insn <;> simp_all [Instruction.placed?]
    split at h
    · obtain rfl := pure_eq_ok.mp h
      exact ⟨_, .shared hstands, rfl, [], rfl, by simp⟩
    · obtain rfl := pure_eq_ok.mp h
      exact ⟨_, .label hstands, rfl, [], rfl, by simp⟩
  · rename_i element
    split at h
    · rename_i own
      exact emitOwned_ok own element h
    · rename_i hn
      obtain rfl := pure_eq_ok.mp h
      exact ⟨_, .hidden element (by simpa using hn), rfl, [], rfl, by simp⟩

theorem Emits.trans {s s' s'' : Emission} {p q : List (Instruction Label)}
    (h : Emits job nesting s s' p) (h' : Emits job nesting s' s'' q) :
    Emits job nesting s s'' (p ++ q) := by
  refine ⟨by rw [h'.code, h.code]; simp, ?_⟩
  obtain ⟨new, hn, hk⟩ := h.calls
  obtain ⟨new', hn', hk'⟩ := h'.calls
  refine ⟨new' ++ new, by rw [hn', hn, List.append_assoc], ?_⟩
  intro called hm
  rcases List.mem_append.mp hm with hm | hm
  · exact hk' called hm
  · exact hk called hm

/-- Elements are emitted piece by piece. -/
theorem emitElements_ok {entries : List (Instruction Label × Nat)} {state state' : Emission}
    (h : entries.foldlM (job.emitElement nesting) state = .ok state') :
    ∃ pieces, List.Forall₂ (fun entry piece => Piece job nesting entry.2 entry.1 piece)
      entries pieces ∧ Emits job nesting state state' pieces.flatten := by
  induction entries generalizing state with
  | nil =>
    rw [List.foldlM_nil, pure_eq_ok] at h
    exact ⟨[], .nil, by simp [h], [], by simp [h], by simp⟩
  | cons entry entries ih =>
    rw [List.foldlM_cons] at h
    obtain ⟨next, he, h⟩ := bind_eq_ok.mp h
    obtain ⟨piece, hp, hf⟩ := emitElement_ok he
    obtain ⟨pieces, hps, hfs⟩ := ih h
    exact ⟨piece :: pieces, .cons hp hps, hf.trans hfs⟩

/-- The copy of the code of a method that is made for an instance. -/
structure Copy where
  nesting : Nesting
  /-- Places of the copies around this one, from the inside out. -/
  enclosing : List Nat
  /-- One for each element of the method. -/
  pieces : List (List (Instruction Label))

def Copy.code (copy : Copy) : List (Instruction Label) :=
  copy.pieces.flatten

/-- The copies at these places are those of the instances around one. -/
inductive Enclosed (copies : List Copy) (nesting : Nesting) : List Nat → Prop
  | outermost (alone : nesting.outer = []) : Enclosed copies nesting []
  | within {place : Nat} {copy : Copy} (at_ : copies[place]? = some copy)
      (nested : nesting.outer = copy.nesting.inner :: copy.nesting.outer) :
      Enclosed copies nesting (place :: copy.enclosing)

/-- Code that is made up of copies. Those around a copy come before it. -/
structure Copied (job : Job) (body : Subroutine) (copies : List Copy)
    (code : List (Instruction Label)) : Prop where
  code : code = copies.flatMap Copy.code
  known : ∀ copy ∈ copies, copy.nesting.inner.subroutine ∈ body :: job.subroutines
  pieces : ∀ copy ∈ copies, List.Forall₂
    (fun entry piece => Piece job copy.nesting entry.2 entry.1 piece)
    job.outline.method.body.code.zipIdx copy.pieces
  enclosed : ∀ {k copy}, copies[k]? = some copy →
    Enclosed (copies.take k) copy.nesting copy.enclosing

theorem Enclosed.mono {copies copies' : List Copy} {enclosing : List Nat}
    (h : Enclosed copies nesting enclosing) (hp : copies <+: copies') :
    Enclosed copies' nesting enclosing := by
  obtain ⟨more, rfl⟩ := hp
  cases h with
  | outermost alone => exact .outermost alone
  | within hat nested =>
    refine .within ?_ nested
    rwa [List.getElem?_append_left (List.getElem?_eq_some_iff.mp hat).1]

/-- What has been emitted is made up of copies, and the instances that wait are within them. -/
structure Progress (job : Job) (body : Subroutine) (copies : List Copy) (state : Inlined)
    (todo : List Nesting) : Prop where
  copied : Copied job body copies state.code.reverse
  waiting : ∀ called ∈ state.calls ++ todo,
    called.inner.subroutine ∈ body :: job.subroutines ∧ ∃ enclosing,
      Enclosed copies called enclosing

variable {body : Subroutine} {copies : List Copy} {state state' : Inlined} {todo : List Nesting}

theorem Copied.append {code : List (Instruction Label)} {copy : Copy}
    (h : Copied job body copies code)
    (hk : copy.nesting.inner.subroutine ∈ body :: job.subroutines)
    (hp : List.Forall₂ (fun entry piece => Piece job copy.nesting entry.2 entry.1 piece)
      job.outline.method.body.code.zipIdx copy.pieces)
    (he : Enclosed copies copy.nesting copy.enclosing) :
    Copied job body (copies ++ [copy]) (code ++ copy.code) where
  code := by rw [h.code, List.flatMap_append, List.flatMap_singleton]
  known := by
    intro c hc
    rcases List.mem_append.mp hc with hc | hc
    · exact h.known c hc
    · exact List.mem_singleton.mp hc ▸ hk
  pieces := by
    intro c hc
    rcases List.mem_append.mp hc with hc | hc
    · exact h.pieces c hc
    · exact List.mem_singleton.mp hc ▸ hp
  enclosed := by
    intro k c hc
    by_cases hlt : k < copies.length
    · rw [List.getElem?_append_left hlt] at hc
      rw [List.take_append_of_le_length (Nat.le_of_lt hlt)]
      exact h.enclosed hc
    · have hlen := (List.getElem?_eq_some_iff.mp hc).1
      obtain rfl : k = copies.length := by simp at hlen; omega
      rw [List.getElem?_concat_length] at hc
      rw [List.take_left, ← Option.some.inj hc]
      exact he

/-- Emitting an instance that waits adds its copy. -/
theorem Progress.emit (h : Progress job body copies state todo) (hm : nesting ∈ todo)
    (he : job.emit state nesting = .ok state') :
    ∃ copies', Progress job body copies' state' todo := by
  obtain ⟨emission, hf, he⟩ := bind_eq_ok.mp he
  obtain ⟨handlers, -, he⟩ := bind_eq_ok.mp he
  obtain ⟨entries, -, he⟩ := bind_eq_ok.mp he
  obtain rfl := pure_eq_ok.mp he
  obtain ⟨hk, enclosing, henc⟩ := h.waiting nesting (List.mem_append_right _ hm)
  obtain ⟨pieces, hp, hemits⟩ := emitElements_ok hf
  let copy : Copy := ⟨nesting, enclosing, pieces⟩
  refine ⟨copies ++ [copy], ?_, ?_⟩
  · have hcode : emission.code.reverse = copy.code := by
      rw [hemits.code, List.append_nil, List.reverse_reverse]
      rfl
    rw [List.reverse_append, hcode]
    exact h.copied.append hk hp henc
  · have hpre : copies <+: copies ++ [copy] := List.prefix_append _ _
    have hold : ∀ called ∈ state.calls ++ todo, called.inner.subroutine ∈ body :: job.subroutines ∧
        ∃ enclosing, Enclosed (copies ++ [copy]) called enclosing := by
      intro called hc
      obtain ⟨hk, around, ha⟩ := h.waiting called hc
      exact ⟨hk, around, ha.mono hpre⟩
    obtain ⟨new, hcalls, hnew⟩ := hemits.calls
    intro called hc
    rw [hcalls, List.append_nil, List.append_assoc] at hc
    rcases List.mem_append.mp hc with hc | hc
    · obtain ⟨hk', hout⟩ := hnew called hc
      exact ⟨List.mem_cons_of_mem _ hk', copies.length :: copy.enclosing,
        .within (by simp) hout⟩
    · exact hold called hc

theorem Progress.emitAll (h : Progress job body copies state []) {depth : Nat}
    (he : job.emitAll depth state = .ok state') :
    ∃ copies', Progress job body copies' state' [] := by
  induction depth generalizing copies state with
  | zero =>
    obtain rfl := Except.ok.inj he
    exact ⟨copies, h⟩
  | succ depth ih =>
    obtain ⟨next, hf, he⟩ := bind_eq_ok.mp he
    have hstart : Progress job body copies { state with calls := [] } state.calls.reverse := by
      refine ⟨h.copied, ?_⟩
      intro called hc
      exact h.waiting called (by simpa using hc)
    obtain ⟨copies', hnext⟩ := foldlM_ok
      (P := fun s => ∃ copies, Progress job body copies s state.calls.reverse)
      (fun nesting hm s s' ⟨_, hp⟩ he => hp.emit hm he) ⟨copies, hstart⟩ hf
    refine @ih copies' next ⟨hnext.copied, ?_⟩ he
    intro called hc
    exact hnext.waiting called (by simp at hc; simp [hc])

/-- The result of inlining is made up of copies. -/
theorem copied_inlineSubroutines {method out : Method} (hc : method.callsSubroutines = true)
    (h : method.inlineSubroutines = .ok out) :
    ∃ body called copies, (Outline.ofMethod method).subroutines = .ok (body, called) ∧
      Copied ⟨.ofMethod method, called⟩ body copies out.body.code := by
  unfold Method.inlineSubroutines at h
  simp only [hc, Bool.not_true, Bool.false_eq_true, if_false] at h
  obtain ⟨-, -, h⟩ := bind_eq_ok.mp h
  obtain ⟨⟨body, called⟩, hs, h⟩ := bind_eq_ok.mp h
  obtain ⟨⟨start, supply⟩, hi, h⟩ := bind_eq_ok.mp h
  obtain ⟨inlined, he, h⟩ := bind_eq_ok.mp h
  obtain rfl := pure_eq_ok.mp h
  obtain ⟨hsub, -, hout⟩ := instantiate_ok hi
  have hstart : Progress ⟨.ofMethod method, called⟩ body [] ⟨supply, [], [], [], [start]⟩ [] := by
    refine ⟨⟨rfl, by simp, by simp, by simp⟩, ?_⟩
    intro nesting hn
    obtain rfl : nesting = start := by simpa using hn
    exact ⟨by simp [hsub], [], .outermost hout⟩
  obtain ⟨copies, hp⟩ := hstart.emitAll he
  exact ⟨body, called, copies, hs, hp.copied⟩

end ClassTree.Subroutine
