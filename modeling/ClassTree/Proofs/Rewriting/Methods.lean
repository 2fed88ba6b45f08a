import ClassTree.Proofs.Reading.Canonical
import ClassTree.Proofs.Rewriting.Alignment

namespace ClassTree

open Pool Build Reader

variable {b : Builder} {table : Table} {owner : String} {skip : Skip} {method : Method}

namespace Code

section Reading

variable {listing : Listing} {declared : Method} {offset : Nat}

/-- Whatever gets a label is referred to, if there are no frames. -/
theorem Listing.labelAt_mem_references (h : Ascending listing.instructions listing.length)
    (hp : listing.misplaced? = none) (hnone : listing.frameEntries = [])
    (ho : offset ∈ listing.mentions) :
    listing.labelAt offset ∈ (listing.addedTo declared).references := by
  have hcode : ∀ insn ∈ listing.elements, offset ∈ insn.references →
      listing.labelAt offset ∈ (listing.addedTo declared).references := by
    intro insn hi hm
    refine List.mem_append_left _ (List.mem_append_left _ (List.mem_flatMap.mpr
      ⟨insn.mapLabels listing.labelAt, List.mem_map_of_mem hi, ?_⟩))
    rw [Instruction.references_mapLabels]
    exact List.mem_map_of_mem hm
  rw [mentions, List.mem_append, List.mem_append, List.mem_flatMap, List.mem_flatMap,
    List.mem_flatMap] at ho
  rcases ho with (⟨entry, hm, ho⟩ | ⟨handler, hm, ho⟩) | ⟨found, hm, ho⟩
  · refine hcode entry.2 ?_ ho
    rw [elements_eq]
    exact List.mem_append_left _ (List.mem_flatMap.mpr
      ⟨entry, hm, List.mem_append_right _ (List.mem_singleton_self _)⟩)
  · refine List.mem_append_left _ (List.mem_append_right _ (List.mem_flatMap.mpr
      ⟨_, List.mem_append_right _ (List.mem_map_of_mem hm), ?_⟩))
    exact List.mem_map_of_mem (f := listing.labelAt) ho
  cases found with
  | lines entries =>
    obtain ⟨entry, he, rfl⟩ := List.mem_map.mp ho
    have hline : entry ∈ linesAt listing.elements := by
      refine List.mem_of_mem_filter (p := (·.1 = entry.1)) ?_
      rw [filter_linesAt h hp]
      exact List.mem_filter.mpr ⟨List.mem_flatMap.mpr ⟨_, hm, he⟩, by simp⟩
    obtain ⟨insn, hi, hsome⟩ := List.mem_filterMap.mp hline
    cases insn with
    | line number start =>
      obtain rfl := Option.some.inj hsome
      exact hcode _ hi (List.mem_singleton_self _)
    | _ => cases hsome
  | localVariables entries =>
    obtain ⟨entry, he, ho⟩ := List.mem_flatMap.mp ho
    have hentry : entry ∈ listing.variableEntries := List.mem_flatMap.mpr ⟨_, hm, he⟩
    have hsome : listing.hasVariables = true := List.any_eq_true.mpr ⟨_, hm, rfl⟩
    have hall := map_fst_foldl_addSignature listing.signatureEntries
      (listing.variableEntries.map fun entry => (entry, none))
    rw [List.map_map, show Prod.fst ∘ (fun entry : VariableEntry => (entry, none)) = id from rfl,
      List.map_id] at hall
    obtain ⟨found, hfound, rfl⟩ := List.mem_map.mp (hall ▸ hentry)
    refine List.mem_append_right _ ?_
    rw [Method.variableList, addedTo, variablesFor, if_pos hsome, Option.getD_some,
      List.flatMap_map]
    exact List.mem_flatMap.mpr ⟨found, hfound, List.mem_map_of_mem (f := listing.labelAt) ho⟩
  | signatures entries => cases ho
  | frames entries =>
    obtain ⟨entry, he, -⟩ := List.mem_flatMap.mp ho
    have hentry : entry ∈ listing.frameEntries := List.mem_flatMap.mpr ⟨_, hm, he⟩
    rw [hnone] at hentry
    cases hentry

end Reading

section Keeping

variable {setting : Setting} {prepared : Prepared} {laidOut : LaidOut} {listing : Listing}

/-- Code that stays as it is is laid out as it was read, whatever its sizes are. -/
theorem Keeps.relaid (h : Keeps b setting method prepared laidOut) (hgives : listing.Gives method)
    (hstarts : Ascending laidOut.instructions laidOut.offsets.length) (maxStack maxLocals : Nat) :
    Relaid b listing (method.sized maxStack maxLocals) laidOut := by
  obtain ⟨hnodup, hplaced⟩ := Method.checkLabels_eq_ok.mp h.labels
  obtain ⟨sites, hwidest⟩ := h.widest
  exact ⟨⟨hgives.ascending, hgives.proper, hgives.unframed, hgives.body, hgives.referenced⟩,
    hplaced, hnodup, h.code, hwidest.laid, hstarts⟩

theorem sortCases_eq {cases : List (Int32 × Nat)}
    (h : cases.Pairwise fun entry later => entry.1.toInt ≤ later.1.toInt) :
    sortCases cases = cases :=
  List.mergeSort_of_pairwise (h.imp fun he => decide_eq_true he)

theorem Keeps.neat (h : Keeps b setting method prepared laidOut) (hgives : listing.Gives method)
    (hread : ∀ entry ∈ listing.instructions, AsRead entry.2) (hs : prepared.Steady method)
    (maxStack maxLocals : Nat) : laidOut.Neat (method.sized maxStack maxLocals) where
  instructions := by
    intro insn hi
    rw [h.code] at hi
    cases insn with
    | jump op target =>
      rw [hgives.code_eq] at hi
      obtain ⟨element, he, hmap⟩ := List.mem_map.mp hi
      rcases Listing.isMarker_or_mem he with hm | ⟨entry, hentry, rfl⟩
      · rw [← Instruction.isMarker_mapLabels listing.labelAt, hmap] at hm
        cases hm
      · cases hinsn : entry.2 with
        | jump other offset =>
          have hnarrow := (hread entry hentry).narrow other offset hinsn
          rw [hinsn] at hmap
          obtain ⟨rfl, -⟩ := Instruction.jump.inj hmap
          have hgoto : other ≠ .gotoWide := by
            rintro rfl
            cases hnarrow
          have hjsr : other ≠ .jsrWide := by
            rintro rfl
            cases hnarrow
          simp only [Instruction.mapLabels, normal, if_neg hgoto, if_neg hjsr]
        | _ => rw [hinsn] at hmap; cases hmap
    | lookupSwitch default cases =>
      have hsorted := hs.switches default cases hi
      rw [Instruction.mapLabels, normal, sortCases_eq]
      exact List.pairwise_map.mpr hsorted
    | _ => rfl
  ranges := by
    have hranges := hs.ranges
    rwa [h.labelOffsets] at hranges
  variables_ := by
    have hvariables := hs.variables_
    rwa [h.labelOffsets] at hvariables
  keys := by
    have hkeys := hs.keys
    rwa [h.labelOffsets] at hkeys

end Keeping

/-- Sizes that are computed do not depend on those of the method. -/
theorem prepare_sized {setting : Setting} (h : setting.recompute = ⟨true, true⟩)
    (maxStack maxLocals : Nat) :
    prepare setting (method.sized maxStack maxLocals) = prepare setting method := by
  have hasIs : setting.computesFrames = false → prepareAsIs setting
      (method.sized maxStack maxLocals) = prepareAsIs setting method := by
    intro hframes
    have hcomputes : setting.computesMaxima = true := by
      rw [Setting.computesMaxima, hframes, h]
      rfl
    have hmaxima : maxima setting (method.sized maxStack maxLocals) = maxima setting method := by
      funext code
      rw [maxima, maxima, if_pos hcomputes, if_pos hcomputes]
      rfl
    unfold prepareAsIs
    rw [hmaxima]
    rfl
  cases hframes : setting.computesFrames with
  | true =>
    unfold prepare
    rw [if_pos hframes, if_pos hframes]
    rfl
  | false =>
    unfold prepare
    rw [if_neg (by simp [hframes]), if_neg (by simp [hframes]), hasIs hframes]
    rfl

theorem attributeInfo_sized {setting : Setting} (h : setting.recompute = ⟨true, true⟩)
    (maxStack maxLocals : Nat) :
    attributeInfo setting (method.sized maxStack maxLocals) = attributeInfo setting method := by
  unfold attributeInfo
  rw [prepare_sized h]
  rfl

end Code

/-- A listing of code was read from something. -/
theorem RawMember.exists_of_mem_listingsOf {declared : Method} {listing : Code.Listing}
    {attributes : List (String × Cursor)}
    (h : listing ∈ listingsOf owner table skip declared attributes) : ∃ cursor cursor',
      (Code.readListing owner declared table skip).run cursor = .ok (listing, cursor') := by
  obtain ⟨⟨name, info⟩, -, hsome⟩ := List.mem_filterMap.mp h
  dsimp only at hsome
  split at hsome
  · cases hparse : info.parse (Code.readListing owner declared table skip) with
    | error fault => rw [hparse] at hsome; cases hsome
    | ok found =>
      rw [hparse] at hsome
      obtain rfl := Option.some.inj hsome
      exact ⟨info, parse_eq_ok.mp hparse⟩
  · cases hsome

namespace Method

variable {setting : Code.Setting} {stored : StoredMember} {found : RawMember}

/-- The code of a method that is read without frames is that of a listing. -/
theorem exists_gives (h : table.PlainHandles) (hskip : skip.frames = true) {member : RawMember}
    (hr : Method.ofRaw owner table skip member = .ok method) (hcode : method.body.code ≠ []) :
    ∃ listing : Code.Listing, listing.Gives method ∧
      ∀ entry ∈ listing.instructions, Code.AsRead entry.2 := by
  have hdeclared : SameDeclaration member.declared member.declared := ⟨rfl, rfl, rfl⟩
  obtain ⟨hnone, hsome⟩ := addAttributes_cases hdeclared hr
  cases hl : (RawMember.listingsOf owner table skip member.declared member.attributes).getLast? with
  | none =>
    refine absurd ?_ hcode
    rw [(hnone (List.getLast?_eq_none_iff.mp hl)).body]
    rfl
  | some listing =>
    obtain ⟨hascending, before, after, -, hadd, hafter⟩ := hsome listing hl
    obtain ⟨hproper, rfl⟩ := Code.Listing.addTo_eq_ok.mp hadd
    obtain ⟨cursor, cursor', hrun⟩ :=
      RawMember.exists_of_mem_listingsOf (List.mem_of_getLast? hl)
    have hunframed := Code.frameEntries_readListing hskip hrun
    refine ⟨listing, ⟨hascending, hproper, hunframed, hafter.body, fun offset ho => ?_⟩,
      Code.asRead_readListing h hrun⟩
    rw [hafter.references_eq]
    exact Code.Listing.labelAt_mem_references hascending hproper hunframed ho

/-- A method is written in the same way whatever its sizes are, if these are computed. -/
theorem encode_sized (h : setting.recompute = ⟨true, true⟩) (maxStack maxLocals : Nat) :
    (method.sized maxStack maxLocals).encode setting = method.encode setting := by
  have hcode : (method.sized maxStack maxLocals).codeAttribute setting =
      method.codeAttribute setting := by
    unfold codeAttribute
    rw [Code.attributeInfo_sized h]
    rfl
  unfold encode
  rw [hcode]
  rfl

/-- A method that is written without code is written like its declaration. -/
theorem encode_codeless (h : method.writesCode = false) :
    { method.header with attributes := method.attributes }.encode setting =
      method.encode setting := by
  have hnone : method.codeAttribute setting = pure [] := by
    rw [codeAttribute, if_neg (by simpa [writesCode] using h)]
  have hheader : { method.header with attributes := method.attributes }.codeAttribute setting =
      pure [] := by
    rw [codeAttribute, if_neg (by simp [header, declared, Body.empty])]
  rw [encode, encode, hnone, hheader]
  rfl

/-- What is found of a method whose code stays as it is, is read as a method that is written
alike. -/
theorem exists_ofRaw_alike (hr : b.Reachable) (hsize : b.bootstrap.size ≤ 0x10000)
    (hrecompute : setting.recompute = ⟨true, true⟩) (hc : method.Canonical)
    (hread : method.body.code ≠ [] → ∃ listing : Code.Listing, listing.Gives method ∧
      ∀ entry ∈ listing.instructions, Code.AsRead entry.2)
    (hcount : method.exceptions.length < 0x10000)
    (hsteady : method.writesCode = true → ∀ prepared,
      Yields (Code.prepare setting method) b prepared b → prepared.Steady method)
    (hfits : FitAttributes stored.attributes) (h : method.StoredAs b setting stored)
    (hfound : stored.FoundAs found) : ∃ again,
      Method.ofRaw setting.owner b.table ⟨false, true⟩ found = .ok again ∧
      Build.Alike Eq (method.encode setting) (again.encode setting) := by
  obtain ⟨code, exceptions, signature, hall, hcode, hexceptions, hsignature⟩ := h.attributes
  unfold StoresCode at hcode
  split at hcode
  · rename_i hwrites
    obtain ⟨info, rfl, hinfo⟩ := hcode
    have hlength : info.length < 0x100000000 := hfits.2 ⟨"Code", info⟩ (by rw [hall]; simp)
    obtain ⟨listing, hgives, hinstructions⟩ := hread fun hnil => by simp [hnil] at hwrites
    obtain ⟨prepared, laidOut, hprepared, hkeeps, hparse⟩ :=
      @Code.exists_readListing_skipping _ _ _ setting.owner
        (declared method.access method.name method.descriptor) _ hr hgives.owns hgives.isFrame_code
        hc.code hsize (hsteady hwrites) hlength hinfo
    obtain ⟨_, hrun⟩ := parse_eq_ok.mp (hparse 0)
    have hrelaid := hkeeps.relaid hgives (Code.ascending_readListing hrun)
      (min prepared.maxStack 0xFFFF) (min prepared.maxLocals 0xFFFF)
    have hneat := hkeeps.neat hgives hinstructions hprepared (min prepared.maxStack 0xFFFF)
      (min prepared.maxLocals 0xFFFF)
    have hadd := hrelaid.addTo_eq (declared method.access method.name method.descriptor)
    have hafter : Interprets (step setting.owner b.table ⟨false, true⟩) [⟨"Code", info⟩]
        (declared method.access method.name method.descriptor) _ :=
      interprets_one fun base => addAttribute_code (hparse base) hadd
    refine ⟨_, ofRaw_of_interprets hafter rfl rfl hc.access hc.attributes hcount h hfound hall
      hexceptions hsignature, ?_⟩
    have halike := (hrelaid.renamed hneat rfl).alike_encode setting
    rwa [encode_sized hrecompute] at halike
  · rename_i hnone
    obtain rfl := hcode
    have hafter : Interprets (step setting.owner b.table ⟨false, true⟩) []
        (declared method.access method.name method.descriptor) _ := interprets_nil
    have hagain := ofRaw_of_interprets hafter rfl rfl hc.access hc.attributes hcount h hfound hall
      hexceptions hsignature
    refine ⟨_, hagain, ?_⟩
    rw [← encode_codeless (by simpa [writesCode] using hnone)]
    exact .refl _

end Method

end ClassTree
