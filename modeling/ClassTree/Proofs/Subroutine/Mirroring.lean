import ClassTree.Proofs.Numbering
import ClassTree.Proofs.Subroutine.Origins
import ClassTree.Proofs.Subroutine.Placement

namespace ClassTree

/-- Control that goes on from one place to the next without being seen. -/
theorem System.Run.along {σ : Type} {system : System σ} {place : Nat → σ} {i j : Nat} (hij : i ≤ j)
    (h : ∀ m, i ≤ m → m < j →
      system.step (place m) (place (m + 1)) ∧ system.seen (place m) = none) :
    system.Run (place i) [] (place j) := by
  induction hij with
  | refl => exact .refl _
  | @step j hij ih =>
    obtain ⟨hstep, hseen⟩ := h j hij (Nat.lt_succ_self j)
    have hrun := (ih fun m hm hlt => h m hm (Nat.lt_succ_of_lt hlt)).trans (.single hstep)
    rwa [hseen] at hrun

theorem Instruction.mem_references_of_jumpTargets {ι : Type} {insn : Instruction ι} {target : ι}
    (h : target ∈ insn.jumpTargets) : target ∈ insn.references := by
  cases insn with
  | jump | tableSwitch | lookupSwitch => exact h
  | _ => cases h

namespace Subroutine

theorem Outline.continues_of_marker {insn : Instruction Label} (h : insn.isMarker = true) :
    continues insn = true := by
  rw [Instruction.isMarker, Option.isNone_iff_eq_none] at h
  rw [continues, h]
  rfl

theorem Outline.continues_mapLabels (f : Label → Label) (insn : Instruction Label) :
    continues (insn.mapLabels f) = continues insn := by
  rw [continues, continues, Instruction.opcode?_mapLabels]

section Markers

variable {method : Method} {insn : Instruction Label} {i j : Nat} {returns : List Nat}
  {config : Config}

theorem leads_marker (hat : method.body.code[i]? = some insn) (hm : insn.isMarker = true) :
    method.Leads i j ↔ j = i + 1 := by
  constructor
  · intro h
    cases h with
    | next => rfl
    | jump hat' hmem =>
      obtain rfl := Option.some.inj (hat.symm.trans hat')
      cases insn with
      | label | line | frame => cases hmem
      | _ => cases hm
  · rintro rfl
    exact .next hat (Outline.continues_of_marker hm)

theorem not_throws_marker (hat : method.body.code[i]? = some insn) (hm : insn.isMarker = true) :
    ¬ method.Throws i j := by
  rintro ⟨hat', hreal, -, -, -⟩
  obtain rfl := Option.some.inj (hat.symm.trans hat')
  rw [hm] at hreal
  cases hreal

theorem not_leads_return {slot : UInt16}
    (hat : method.body.code[i]? = some (.var .ret slot)) : ¬ method.Leads i j := by
  intro h
  cases h with
  | next hat' hc =>
    obtain rfl := Option.some.inj (hat.symm.trans hat')
    cases hc
  | jump hat' hm =>
    obtain rfl := Option.some.inj (hat.symm.trans hat')
    cases hm

theorem step_marker (hat : method.body.code[i]? = some insn) (hm : insn.isMarker = true) :
    Step method ⟨i, returns⟩ config ↔ config = ⟨i + 1, returns⟩ := by
  constructor
  · intro h
    cases h with
    | leads _ _ leads => rw [(leads_marker hat hm).mp leads]
    | throws throws => exact absurd throws (not_throws_marker hat hm)
    | call hat' | ret hat' =>
      obtain rfl := Option.some.inj (hat.symm.trans hat')
      cases hm
  · rintro rfl
    refine .leads hat ?_ ((leads_marker hat hm).mpr rfl)
    cases insn with
    | jump => cases hm
    | _ => rfl

/-- Up to the next instruction, nothing is seen. -/
theorem run_nextReal (hj : nextReal method.body.code i = some j) (returns : List Nat) :
    (calling method).Run ⟨i, returns⟩ [] ⟨j, returns⟩ := by
  obtain ⟨hij, ⟨_, hlast, -⟩, hmarkers⟩ := nextReal_spec hj
  refine @System.Run.along _ _ (fun m => Config.mk m returns) _ _ hij fun m him hmj => ?_
  have hat := List.getElem?_eq_getElem (Nat.lt_trans hmj (List.getElem?_eq_some_iff.mp hlast).1)
  have hm := hmarkers m _ him hmj hat
  exact ⟨(step_marker hat hm).mpr rfl, seenAt_marker hat hm⟩

theorem Reaches.run {config' : Config} {seen : List Nat} (h : Reaches method config)
    (hr : (calling method).Run config seen config') : Reaches method config' := by
  obtain ⟨before, hb⟩ := h
  exact ⟨_, hb.trans hr⟩

/-- Control that cannot run off the end of the code gets to an instruction. -/
theorem Reaches.nextReal (h : Reaches method config)
    (hend : ∀ config, Reaches method config → config.index < method.body.code.length) :
    ∃ j, Subroutine.nextReal method.body.code config.index = some j := by
  rw [← Option.isSome_iff_exists, ← Option.ne_none_iff_isSome]
  intro hnone
  obtain ⟨i, returns⟩ := config
  have hrun : (calling method).Run ⟨i, returns⟩ [] ⟨method.body.code.length, returns⟩ := by
    refine @System.Run.along _ _ (fun m => Config.mk m returns) _ _ (Nat.le_of_lt (hend _ h))
      fun m him hm => ?_
    have hat := List.getElem?_eq_getElem hm
    have hm := nextReal_eq_none hnone him hat
    exact ⟨(step_marker hat hm).mpr rfl, seenAt_marker hat hm⟩
  exact Nat.lt_irrefl _ (hend _ (h.run hrun))

end Markers

variable {job : Job} {body : Subroutine} {copies : List Copy} {out : Method} {copy : Copy}
  {k i j p : Nat} {insn : Instruction Label}

theorem Copied.run_nextReal (h : Copied job body copies out.body.code)
    (hj : nextReal out.body.code i = some j) :
    (out.flat (origin job.outline.method copies)).Run i [] j := by
  obtain ⟨hij, ⟨_, hlast, -⟩, hmarkers⟩ := nextReal_spec hj
  refine @System.Run.along _ _ id _ _ hij fun m him hmj => ?_
  have hat := List.getElem?_eq_getElem (Nat.lt_trans hmj (List.getElem?_eq_some_iff.mp hlast).1)
  have hm := hmarkers m _ him hmj hat
  exact ⟨.inl ((leads_marker hat hm).mpr rfl), h.origin_marker hat hm⟩

/-- An instruction is copied with each label that it refers to replaced. -/
theorem resolve_ok {nesting : Nesting} {copied : Instruction Label}
    (h : job.resolve nesting insn = .ok copied) : ∃ f, copied = insn.mapLabels f ∧
      ∀ label ∈ insn.references, job.jumpLabel nesting label = .ok (f label) := by
  obtain ⟨resolved, hr, h⟩ := bind_eq_ok.mp h
  refine ⟨_, (pure_eq_ok.mp h).symm, fun label hl => ?_⟩
  have hin : label ∈ Std.HashMap.ofList resolved := by
    obtain ⟨entry, hm, he⟩ := exists_mem_of_mapM hr hl
    obtain ⟨clone, -, he⟩ := bind_eq_ok.mp he
    obtain rfl := pure_eq_ok.mp he
    rw [Std.HashMap.mem_ofList, List.contains_iff_mem]
    exact List.mem_map.mpr ⟨_, hm, rfl⟩
  obtain ⟨clone, hc⟩ := Option.isSome_iff_exists.mp (Std.HashMap.isSome_getElem?_iff_mem.mpr hin)
  obtain ⟨_, -, he⟩ := exists_of_mem_mapM hr (mem_of_ofList hc)
  obtain ⟨_, hj, he⟩ := bind_eq_ok.mp he
  obtain ⟨rfl, rfl⟩ := Prod.mk.inj (pure_eq_ok.mp he)
  rw [Std.HashMap.getD_eq_getD_getElem?, hc]
  exact hj

theorem jumpLabel_of_emitHandler {nesting : Nesting} {original handler : TryCatch}
    (h : job.emitHandler nesting original = .ok (some handler)) :
    job.jumpLabel nesting original.handler = .ok handler.handler := by
  obtain ⟨first, -, h⟩ := bind_eq_ok.mp h
  obtain ⟨last, -, h⟩ := bind_eq_ok.mp h
  split at h
  · cases h
  obtain ⟨entry, he, h⟩ := bind_eq_ok.mp h
  obtain rfl := Option.some.inj (pure_eq_ok.mp h)
  exact he

/-- From a place of the inlined code, control gets to what a copy emits for the instruction that it
gets to from an index of the method. -/
structure Lands (job : Job) (copies : List Copy) (out : Method) (k : Nat) (copy : Copy)
    (i p : Nat) : Prop where
  next : ∀ {j}, nextReal job.outline.method.body.code i = some j →
    copy.nesting.inner.subroutine.claims j = true ∧
      nextReal out.body.code p = some (start copies k j)

/-- Control gets to the same instructions in a copy as in the method. -/
structure Mirrored (job : Job) (copies : List Copy) (out : Method) (k : Nat) (copy : Copy)
    (inMethod inCopy : Nat → Prop) : Prop where
  forth : ∀ {i}, inMethod i → ∃ p, inCopy p ∧ Lands job copies out k copy i p
  back : ∀ {p}, inCopy p → ∃ i, inMethod i ∧ Lands job copies out k copy i p

/-- The indices to return to, from a copy. Each is after a call, whose copy goes on after it. -/
inductive Stacked (job : Job) (copies : List Copy) : List Nat → Nat → Prop
  | body {k : Nat} {copy : Copy} (at_ : copies[k]? = some copy)
      (noReturn : copy.nesting.inner.returnLabel = none) : Stacked job copies [] k
  | call {returns : List Nat} {k k' i : Nat} {copy copy' : Copy} {target entry back : Label}
      (caller : Stacked job copies returns k) (at_ : copies[k]? = some copy)
      (claims : copy.nesting.inner.subroutine.claims i = true)
      (calls : job.outline.method.body.code[i]? = some (.jump .jsr target))
      (piece : copy.pieces[i]? = some (callPiece entry back)) (at' : copies[k']? = some copy')
      (returns_ : copy'.nesting.inner.returnLabel = some back) :
      Stacked job copies ((i + 1) :: returns) k'

namespace Separate

variable (h : Separate job body copies out)
include h

theorem claims_next (hk : copies[k]? = some copy)
    (hi : copy.nesting.inner.subroutine.claims i = true)
    (hat : job.outline.method.body.code[i]? = some insn) (hc : Outline.continues insn = true)
    (hj : nextReal job.outline.method.body.code (i + 1) = some j) :
    copy.nesting.inner.subroutine.claims j = true := by
  have hcode : job.outline.code = job.outline.method.body.code.toArray := by
    rw [h.outline]
    rfl
  have hclosed := Outline.closed_subroutines h.subroutines _
    (h.copied.known copy (List.mem_of_getElem? hk))
  exact claims_nextReal hcode hclosed hi hat hc hj

theorem lands_next (hk : copies[k]? = some copy)
    (hi : copy.nesting.inner.subroutine.claims i = true)
    (hat : job.outline.method.body.code[i]? = some insn) (hc : Outline.continues insn = true) :
    Lands job copies out k copy (i + 1) (start copies k (i + 1)) := by
  refine ⟨fun hj => ?_⟩
  have hclaims := h.claims_next hk hi hat hc hj
  exact ⟨hclaims, nextReal_of_owns h.copied hk hj (h.owns_of_claims hk hclaims)⟩

theorem lands_start (hk : copies[k]? = some copy)
    (hi : copy.nesting.inner.subroutine.claims i = true)
    (hat : job.outline.method.body.code[i]? = some insn) :
    Lands job copies out k copy i (start copies k i) := by
  refine ⟨fun {j} hj => ?_⟩
  have hclaims : copy.nesting.inner.subroutine.claims j = true := by
    cases hm : insn.isMarker with
    | true =>
      exact h.claims_next hk hi hat (Outline.continues_of_marker hm)
        ((nextReal_of_marker hat hm).symm.trans hj)
    | false => exact Option.some.inj ((nextReal_of_real hat hm).symm.trans hj) ▸ hi
  exact ⟨hclaims, nextReal_of_owns h.copied hk hj (h.owns_of_claims hk hclaims)⟩

theorem lands_label (hk : copies[k]? = some copy) {label clone : Label}
    (hc : job.jumpLabel copy.nesting label = .ok clone) : ∃ i p,
      job.outline.method.place? label = some i ∧ out.place? clone = some p ∧
      Lands job copies out k copy i p := by
  obtain ⟨i, hi, hclaims, hl⟩ := h.stands_of_jumpLabel hk hc
  have hat := Method.getElem?_of_place? hi
  obtain ⟨_, -, hplace, -, -⟩ := h.place?_clone hk hat hl
  refine ⟨i, _, hi, hplace, ⟨fun {j} hj => ?_⟩⟩
  have hclaims' := h.claims_next hk hclaims hat rfl ((nextReal_of_marker hat rfl).symm.trans hj)
  obtain ⟨place, hplace', hnext⟩ := h.nextReal_label hk hat hl hj (h.owns_of_claims hk hclaims')
  obtain rfl := Option.some.inj (hplace.symm.trans hplace')
  exact ⟨hclaims', hnext⟩

/-- The copy of an instruction leads to where the instruction does. -/
theorem mirrored_leads (hk : copies[k]? = some copy)
    (hj : copy.nesting.inner.subroutine.claims j = true)
    (hat : job.outline.method.body.code[j]? = some insn) (hreal : insn.isMarker = false)
    (noCall : callTarget? insn = none) (noReturn : ∀ slot, insn ≠ .var .ret slot) :
    Mirrored job copies out k copy (job.outline.method.Leads j)
      (out.Leads (start copies k j)) := by
  obtain ⟨piece, hpiece, hp⟩ := h.copied.piece hk hat
  cases hp with
  | label | shared | frame => cases hreal
  | hidden _ other => cases other.symm.trans (h.owns_of_claims hk hj)
  | ret => exact absurd rfl (noReturn _)
  | call => cases noCall
  | copy _ _ _ _ _ resolved =>
    obtain ⟨f, rfl, hf⟩ := resolve_ok resolved
    have hout := h.code_at hk hpiece (n := 0) (by simp)
    have hnext := h.lands_next hk hj hat
    rw [start_succ hk hpiece] at hnext
    constructor
    · intro i hl
      cases hl with
      | next hat' hc =>
        obtain rfl := Option.some.inj (hat.symm.trans hat')
        exact ⟨_, .next hout (Outline.continues_mapLabels f insn ▸ hc), hnext hc⟩
      | jump hat' hm hi =>
        obtain rfl := Option.some.inj (hat.symm.trans hat')
        obtain ⟨i', p, hi', hp, hlands⟩ :=
          h.lands_label hk (hf _ (Instruction.mem_references_of_jumpTargets hm))
        obtain rfl := Option.some.inj (hi.symm.trans hi')
        refine ⟨p, .jump hout ?_ hp, hlands⟩
        rw [Instruction.jumpTargets_mapLabels]
        exact List.mem_map.mpr ⟨_, hm, rfl⟩
    · intro p hl
      cases hl with
      | next hat' hc =>
        obtain rfl := Option.some.inj (hout.symm.trans hat')
        rw [Outline.continues_mapLabels] at hc
        exact ⟨_, .next hat hc, hnext hc⟩
      | jump hat' hm hp =>
        obtain rfl := Option.some.inj (hout.symm.trans hat')
        rw [Instruction.jumpTargets_mapLabels] at hm
        obtain ⟨label, hl, rfl⟩ := List.mem_map.mp hm
        obtain ⟨i, p', hi, hp', hlands⟩ :=
          h.lands_label hk (hf label (Instruction.mem_references_of_jumpTargets hl))
        obtain rfl := Option.some.inj (hp.symm.trans hp')
        exact ⟨i, .jump hat hl hi, hlands⟩

/-- What protects an instruction that a copy emits is there in the copy, too. -/
theorem emitHandler_of_protects (hk : copies[k]? = some copy)
    (hj : copy.nesting.inner.subroutine.claims j = true)
    (hat : job.outline.method.body.code[j]? = some insn) (hreal : insn.isMarker = false)
    {original : TryCatch} (ho : original ∈ job.outline.method.handlers)
    (hp : job.outline.method.Protects original j) : ∃ handler ∈ out.handlers,
      job.emitHandler copy.nesting original = .ok (some handler) := by
  have hc := List.mem_of_getElem? hk
  obtain ⟨found, hf, hin⟩ := h.handles copy hc original ho
  cases found with
  | some handler => exact ⟨handler, hin handler rfl, hf⟩
  | none =>
    -- The range is empty only if nothing in it is emitted.
    exfalso
    obtain ⟨first, hfirst, hf⟩ := bind_eq_ok.mp hf
    obtain ⟨last, hlast, hf⟩ := bind_eq_ok.mp hf
    split at hf
    · rename_i heq
      subst heq
      obtain ⟨a, b, ha, hb, haj, hjb⟩ := hp
      obtain ⟨_, hpending⟩ := (h.complete copy hc).pending
      obtain ⟨_, _, -, -, hclones⟩ := hpending.clones
      have helement : insn.placed? = none := by
        cases insn with
        | label => cases hreal
        | _ => rfl
      have hn := hclones.joined (Method.getElem?_of_place? ha) (Method.getElem?_of_place? hb)
        (stands_of_rangeLabel hfirst) (stands_of_rangeLabel hlast) haj hjb hat helement
      cases hn.symm.trans (h.owns_of_claims hk hj)
    · obtain ⟨_, -, hf⟩ := bind_eq_ok.mp hf
      cases pure_eq_ok.mp hf

/-- All that is emitted for an instruction throws to where the instruction does. -/
theorem mirrored_throws (hk : copies[k]? = some copy)
    (hj : copy.nesting.inner.subroutine.claims j = true)
    (hat : job.outline.method.body.code[j]? = some insn) (hreal : insn.isMarker = false)
    (hlo : start copies k j ≤ p) (hhi : p < start copies k (j + 1)) {other : Instruction Label}
    (hp : out.body.code[p]? = some other) (hreal' : other.isMarker = false) :
    Mirrored job copies out k copy (job.outline.method.Throws j) (out.Throws p) := by
  have own := h.owns_of_claims hk hj
  constructor
  · rintro i ⟨-, -, hm, hprotects, hi⟩
    obtain ⟨handler, hm', he⟩ := h.emitHandler_of_protects hk hj hat hreal hm hprotects
    obtain ⟨i', q, hi', hq, hlands⟩ := h.lands_label hk (jumpLabel_of_emitHandler he)
    obtain rfl := Option.some.inj (hi.symm.trans hi')
    exact ⟨q, .intro hp hreal' hm' ((h.protects_iff hk he hat hreal own hlo hhi).mpr hprotects) hq,
      hlands⟩
  · rintro q ⟨-, -, hm, hprotects, hq⟩
    obtain ⟨copy', hc', original, ho, he⟩ := h.handled _ hm
    obtain ⟨k', hk'⟩ := List.getElem?_of_mem hc'
    obtain rfl : k' = k := h.eq_of_protects hk hk' he hlo hhi hprotects
    obtain rfl := Option.some.inj (hk.symm.trans hk')
    obtain ⟨i, q', hi, hq', hlands⟩ := h.lands_label hk (jumpLabel_of_emitHandler he)
    obtain rfl := Option.some.inj (hq.symm.trans hq')
    exact ⟨i, .intro hat hreal ho ((h.protects_iff hk he hat hreal own hlo hhi).mp hprotects) hi,
      hlands⟩

/-- A call that a copy makes enters another copy, which returns to after the call. -/
theorem call_at {returns : List Nat} (hs : Stacked job copies returns k)
    (hk : copies[k]? = some copy) (hj : copy.nesting.inner.subroutine.claims j = true)
    {target : Label} (hat : job.outline.method.body.code[j]? = some (.jump .jsr target)) :
    ∃ entry back k' copy' i p, copy.pieces[j]? = some (callPiece entry back) ∧
      copies[k']? = some copy' ∧ Stacked job copies ((j + 1) :: returns) k' ∧
      job.outline.method.place? target = some i ∧ out.place? entry = some p ∧
      Lands job copies out k' copy' i p := by
  obtain ⟨copy', hc', entry, back, hpiece, hcall⟩ :=
    h.calls copy (List.mem_of_getElem? hk) hat (h.owns_of_claims hk hj)
  obtain ⟨k', hk'⟩ := List.getElem?_of_mem hc'
  obtain ⟨i, p, hi, hp, hlands⟩ := h.lands_label hk' hcall.enters
  exact ⟨entry, back, k', copy', i, p, hpiece, hk',
    .call hs hk hj hat hpiece hk' hcall.returns, hi, hp, hlands⟩

/-- A copy with a `RET` has been called, and the `RET` jumps to after the call. -/
theorem return_at {returns : List Nat} (hs : Stacked job copies returns k)
    (hk : copies[k]? = some copy) (hj : copy.nesting.inner.subroutine.claims j = true)
    {slot : UInt16} (hat : job.outline.method.body.code[j]? = some (.var .ret slot)) :
    ∃ back i rest k' copy' p, copy.pieces[j]? = some [.jump .goto back] ∧ returns = i :: rest ∧
      copies[k']? = some copy' ∧ Stacked job copies rest k' ∧ out.place? back = some p ∧
      Lands job copies out k' copy' i p := by
  obtain ⟨piece, hpiece, hp⟩ := h.copied.piece hk hat
  cases hp with
  | hidden _ other => cases other.symm.trans (h.owns_of_claims hk hj)
  | copy _ _ _ noReturn => exact absurd rfl (noReturn slot)
  | @ret _ back _ hback =>
    cases hs with
    | body hk' noReturn =>
      obtain rfl := Option.some.inj (hk.symm.trans hk')
      cases noReturn.symm.trans hback
    | @call rest k' _ i copy' _ target entry back' caller hk' hi hcalls hcalled hk'' hreturns =>
      obtain rfl := Option.some.inj (hk.symm.trans hk'')
      obtain rfl := Option.some.inj (hback.symm.trans hreturns)
      have hout := h.code_at hk' hcalled (n := 2) (by simp [callPiece])
      refine ⟨back, i + 1, rest, k', copy', _, hpiece, rfl, hk', caller,
        Method.place?_of_nodup h.nodup hout, ⟨fun hnext => ?_⟩⟩
      rw [nextReal_of_marker hout rfl, Nat.add_assoc]
      have hlands := h.lands_next hk' hi hcalls rfl
      rw [start_succ hk' hcalled] at hlands
      exact hlands.next hnext

end Separate
end Subroutine
end ClassTree
