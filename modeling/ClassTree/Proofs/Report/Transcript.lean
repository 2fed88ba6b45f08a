import ClassTree.Proofs.Relabelling
import ClassTree.Proofs.Report.Flags

namespace ClassTree

/-- The method with a table of variables, which is empty if there was none. -/
def Method.tabled (method : Method) : Method :=
  { method with localVariables := some method.variableList }

/-- The method without what is only there for debugging. -/
def Method.withoutDebug (method : Method) : Method :=
  { method with
    body := { method.body with code := method.body.code.filter fun insn => !insn.isLine }
    localVariables := none }

namespace Transcript

open Text

section

variable (names : LabelNames)

/-- The label whose own number is the one that another label is shown by. -/
def numbered (l : Label) : Label :=
  ⟨names.getD l l.index⟩

theorem label_numbered (l : Label) : label ∅ (numbered names l) = label names l := by
  simp [label, numbered]

theorem frameType_numbered (type : VerificationType String Label) :
    frameType ∅ (type.mapCreation (numbered names)) = frameType names type := by
  cases type with
  | uninitialized creation =>
    exact congrArg (fun text => call _ [text]) (label_numbered names creation)
  | _ => rfl

theorem frameTypes_numbered (types : List (VerificationType String Label)) :
    frameTypes ∅ (types.map (VerificationType.mapCreation (numbered names))) =
      frameTypes names types := by
  simp only [frameTypes, List.map_map, Function.comp_def, frameType_numbered]

theorem instruction_numbered (insn : Instruction Label) :
    instruction ∅ (insn.mapLabels (numbered names)) = instruction names insn := by
  cases insn <;> simp only [Instruction.mapLabels, instruction, label_numbered, frameTypes_numbered,
    List.map_map, Function.comp_def]

theorem handler_numbered (entry : TryCatch) :
    handler ∅ (entry.mapLabels (numbered names)) = handler names entry := by
  simp only [handler, TryCatch.mapLabels, label_numbered]

theorem localVariable_numbered (entry : LocalVariable) :
    localVariable ∅ (entry.mapLabels (numbered names)) = localVariable names entry := by
  simp only [localVariable, LocalVariable.mapLabels, label_numbered]

end

inductive Part where
  | signature | exceptions | labels | code | handlers | locals | maxima | attributes | build
deriving DecidableEq

def parts : List Part :=
  [.signature, .exceptions, .labels, .code, .handlers, .locals, .maxima, .attributes, .build]

def headerItems (method : Method) : List String :=
  [flags "MethodAccessFlags" method.access, quoted method.name, quoted method.descriptor]

def header (method : Method) : String :=
  "let mut method = " ++ call "MethodBuilder::new" (headerItems method) ++ ";"

/-- Lines of a part, for a method whose labels have the numbers that they are shown by. -/
def Part.lines (method : Method) : Part → List String
  | signature =>
    method.signature.toList.map fun text => statement "method" (call "signature" [quoted text])
  | exceptions =>
    method.exceptions.map fun name => statement "method" (call "exception" [quoted name])
  | labels => (List.range method.body.labels).map fun index => s!"let l{index} = method.label();"
  | code => method.body.code.map (statement "method" <| instruction ∅ ·)
  | handlers => method.handlers.map (statement "method" <| handler ∅ ·)
  | locals => method.variableList.map (statement "method" <| localVariable ∅ ·)
  | maxima => (Transcript.maxima method).map (statement "method")
  | attributes => method.attributes.map (statement "method" <| rawAttribute ·)
  | build => ["let method = method.build();"]

def linesOf (method : Method) : List String :=
  header method :: parts.flatMap (Part.lines method)

theorem shownCode_true (method : Method) : shownCode true method = method.body.code :=
  List.filter_eq_self.mpr fun _ _ => rfl

theorem relabelled_eq_numbered (method : Method) : method.tabled.relabelled =
    method.tabled.mapLabels (numbered (labelNames true method)) (labelNames true method).size := by
  have hnames : labelNames true method = Numbering.ofList method.tabled.mentions := by
    rw [labelNames, shownCode_true]
    rfl
  rw [hnames]
  refine Method.mapLabels_congr (fun label hm => congrArg Label.mk ?_) _
  rw [Std.HashMap.getD_eq_getD_getElem?, Std.HashMap.getD_eq_getD_getElem?,
    Std.HashMap.getElem?_eq_some_getElem (Numbering.mem_ofList.mpr hm)]
  rfl

/-- A transcript is that of the relabelled method. -/
theorem ofMethod_true (method : Method) :
    ofMethod true method = unlines (linesOf method.tabled.relabelled) := by
  rw [ofMethod, relabelled_eq_numbered]
  simp only [methodLines, linesOf, parts, List.flatMap_cons, List.flatMap_nil, Part.lines,
    shownCode_true, Method.code_mapLabels, Method.handlers_mapLabels,
    Method.variableList_mapLabels, List.map_map, Function.comp_def, instruction_numbered,
    handler_numbered, localVariable_numbered, List.append_assoc, List.append_nil]
  rfl

def callee (line : String) : String :=
  .ofList (line.toList.takeWhile (· != '('))

theorem callee_append {name : String} (hs : Simple name) (rest : String) :
    callee (name ++ ("(" ++ rest)) = name := by
  have hname : ∀ c ∈ name.toList, (c != '(') = true := by
    intro c hc
    refine bne_iff_ne.mpr ?_
    rintro rfl
    exact hs.bracket_notMem hc
  have hrest : (name ++ ("(" ++ rest)).toList = name.toList ++ '(' :: rest.toList := by simp
  rw [callee, hrest, List.takeWhile_append_of_pos hname]
  simp

/-- The parts by what is called in their lines, other than those that hand out labels. -/
def callees : List (String × Part) :=
  [("method.signature", .signature), ("method.exception", .exceptions),
   ("method.try_catch", .handlers), ("method.local_variable", .locals),
   ("method.maxs", .maxima), ("method.attribute", .attributes),
   ("let method = method.build", .build)] ++ callNames.map fun name => ("method." ++ name, .code)

def Part.ofLine (line : String) : Part :=
  (callees.lookup (callee line)).getD .labels

theorem ofLine_statement {name : String} {part : Part} (hs : Simple name) (items : List String)
    (hp : callees.lookup ("method." ++ name) = some part) :
    Part.ofLine (statement "method" (call name items)) = part := by
  have hshape : statement "method" (call name items) =
      "method." ++ name ++ ("(" ++ (listed items ++ ")" ++ ";")) := by
    rw [statement, call_eq]
    simp only [String.append_assoc]
    rfl
  rw [Part.ofLine, hshape, callee_append ((simple_ofList _ rfl).append hs), hp]
  rfl

theorem lookup_callNames {name : String} (hm : name ∈ callNames) :
    callees.lookup ("method." ++ name) = some .code := by
  revert name
  decide

theorem ofLine_instruction (insn : Instruction Label) :
    Part.ofLine (statement "method" (instruction ∅ insn)) = .code := by
  obtain ⟨name, hat, hs, he⟩ := instruction_eq ∅ insn
  rw [he]
  exact ofLine_statement hs _ (lookup_callNames (List.mem_of_getElem? hat))

/-- Nothing else begins like a line that hands out a label. -/
theorem ofLine_label (index : Nat) : Part.ofLine s!"let l{index} = method.label();" = .labels := by
  have hs : Simple ("let l" ++ (index.repr ++ " = method.label")) :=
    (simple_ofList _ rfl).append ((simple_repr index).append (simple_ofList _ rfl))
  have hshape : s!"let l{index} = method.label();" =
      "let l" ++ (index.repr ++ " = method.label") ++ ("(" ++ ");") := by
    simp only [String.append_assoc]
    rfl
  have hbegins : ∀ p ∈ callees, ¬ "let l".toList <+: p.1.toList := by
    decide
  have hnone : callees.lookup ("let l" ++ (index.repr ++ " = method.label")) = none := by
    refine List.lookup_eq_none_iff.mpr fun p hp => bne_iff_ne.mpr fun he => hbegins p hp ?_
    rw [← he, String.toList_append]
    exact List.prefix_append _ _
  rw [Part.ofLine, hshape, callee_append hs, hnone]
  rfl

theorem ofLine_of_mem {line : String} {part : Part} {method : Method}
    (hm : line ∈ part.lines method) : Part.ofLine line = part := by
  cases part with
  | build =>
    obtain rfl := List.mem_singleton.mp hm
    rfl
  | labels =>
    obtain ⟨index, -, rfl⟩ := List.mem_map.mp hm
    exact ofLine_label index
  | code =>
    obtain ⟨insn, -, rfl⟩ := List.mem_map.mp hm
    exact ofLine_instruction insn
  | maxima =>
    obtain ⟨text, htext, rfl⟩ := List.mem_map.mp hm
    unfold Transcript.maxima at htext
    split at htext
    · cases htext
    · obtain rfl := List.mem_singleton.mp htext
      exact ofLine_statement (simple_ofList _ rfl) _ rfl
  | signature | exceptions | handlers | locals | attributes =>
    obtain ⟨entry, -, rfl⟩ := List.mem_map.mp hm
    exact ofLine_statement (simple_ofList _ rfl) _ rfl

/-- A part is made of the lines that tell that they belong to it. -/
theorem filter_parts (method : Method) (part : Part) :
    (parts.flatMap (Part.lines method)).filter (fun line => Part.ofLine line = part) =
      part.lines method := by
  have hfilter : ∀ other : Part, (other.lines method).filter (fun line => Part.ofLine line = part) =
      if other = part then part.lines method else [] := by
    intro other
    split
    case isTrue h =>
      subst h
      exact List.filter_eq_self.mpr fun line hm => decide_eq_true (ofLine_of_mem hm)
    case isFalse h =>
      exact List.filter_eq_nil_iff.mpr fun line hm => by simpa [ofLine_of_mem hm] using h
  rw [List.filter_flatMap]
  simp only [hfilter]
  cases part <;> simp [parts]

/-- The literals of a method can all be told from their words. -/
def ExactCode (method : Method) : Prop :=
  ∀ insn ∈ method.body.code, Exact insn

theorem word_statement {text : String} (h : Word text) : Word (statement "method" text) := by
  have hobject : Word "method" := word_ofList _ rfl
  have hdot : Word "." := word_ofList _ rfl
  have hend : Word ";" := word_ofList _ rfl
  exact ((hobject.append hdot).append h).append hend

theorem statement_inj {text other : String}
    (h : statement "method" text = statement "method" other) : text = other :=
  (String.append_right_inj _).mp ((String.append_left_inj _).mp h)

theorem word_headerItems (method : Method) : ∀ a ∈ headerItems method, Word a := by
  have hflags : Word (flags "MethodAccessFlags" method.access) :=
    word_flags (simple_ofList _ rfl) method.access
  simp [headerItems, hflags, word_quoted]

theorem word_header (method : Method) : Word (header method) := by
  have hfront : Word "let mut method = " := word_ofList _ rfl
  have hend : Word ";" := word_ofList _ rfl
  exact (hfront.append (word_call (simple_ofList _ rfl) (word_headerItems method))).append hend

theorem word_brackets : Word "();" :=
  ⟨by decide, fun _ => rfl⟩

theorem word_of_mem_lines {line : String} {part : Part} {method : Method} (hx : ExactCode method)
    (hm : line ∈ part.lines method) : Word line := by
  cases part with
  | build =>
    obtain rfl := List.mem_singleton.mp hm
    have hfront : Word "let method = method.build" := word_ofList _ rfl
    exact hfront.append word_brackets
  | labels =>
    obtain ⟨index, -, rfl⟩ := List.mem_map.mp hm
    have hfront : Word "let l" := word_ofList _ rfl
    have hcallee : Word " = method.label" := word_ofList _ rfl
    exact (hfront.append (word_repr index)).append (hcallee.append word_brackets)
  | code =>
    obtain ⟨insn, hinsn, rfl⟩ := List.mem_map.mp hm
    exact word_statement (word_instruction (hx insn hinsn))
  | maxima =>
    obtain ⟨text, htext, rfl⟩ := List.mem_map.mp hm
    unfold Transcript.maxima at htext
    split at htext
    · cases htext
    · obtain rfl := List.mem_singleton.mp htext
      exact word_statement (word_call (simple_ofList _ rfl) (by simp [word_integer]))
  | signature | exceptions =>
    obtain ⟨text, -, rfl⟩ := List.mem_map.mp hm
    exact word_statement (word_quotedCall (simple_ofList _ rfl) text)
  | handlers =>
    obtain ⟨entry, -, rfl⟩ := List.mem_map.mp hm
    exact word_statement (word_handler entry)
  | locals =>
    obtain ⟨entry, -, rfl⟩ := List.mem_map.mp hm
    exact word_statement (word_localVariable entry)
  | attributes =>
    obtain ⟨entry, -, rfl⟩ := List.mem_map.mp hm
    exact word_statement (word_rawAttribute entry)

/-- A text is cut into its lines in one way only. -/
theorem unlines_inj {lines others : List String} (h : ∀ line ∈ lines, Word line)
    (h' : ∀ line ∈ others, Word line) (he : unlines lines = unlines others) : lines = others := by
  have hlists : lines.flatMap (fun line => line.toList ++ ['\n']) =
      others.flatMap fun line => line.toList ++ ['\n'] := by
    have hlists := congrArg String.toList he
    simpa [unlines, String.toList_join, List.flatMap_map] using hlists
  have hend : ∀ rest : List Char, Halts Place.next (.plain 0) ('\n' :: rest) := by
    intro rest c hc
    obtain rfl := Option.some.inj hc
    rfl
  refine flatMap_inj (P := fun _ => True) trivial (fun _ _ => trivial) (fun line hnil => ?_)
    (fun line hm other hm' s t _ _ heq => ?_) hlists
  · cases (List.append_eq_nil_iff.mp hnil).2
  · rw [List.append_assoc, List.append_assoc] at heq
    obtain ⟨hline, hrest⟩ :=
      ((h line hm).returns 0).append_inj ((h' other hm').returns 0) (hend s) (hend t) heq
    exact ⟨String.toList_inj.mp hline, (List.cons.inj hrest).2⟩

theorem word_of_mem_linesOf {line : String} {method : Method} (hx : ExactCode method)
    (hm : line ∈ linesOf method) : Word line := by
  rcases List.mem_cons.mp hm with rfl | hm
  · exact word_header method
  · obtain ⟨part, -, hm⟩ := List.mem_flatMap.mp hm
    exact word_of_mem_lines hx hm

section

variable {method other : Method}

theorem header_inj (h : method.access = .ofBits .ofMethod method.access.bits)
    (h' : other.access = .ofBits .ofMethod other.access.bits) (he : header method = header other) :
    method.access = other.access ∧ method.name = other.name ∧
      method.descriptor = other.descriptor := by
  have hcall := (String.append_right_inj _).mp ((String.append_left_inj _).mp he)
  have hitems := bracketed_inj (word_headerItems method) (word_headerItems other) hcall
  simp only [headerItems, List.cons.injEq, quoted_inj, and_true] at hitems
  obtain ⟨hflags, hname, hdescriptor⟩ := hitems
  exact ⟨flags_inj (by simp) h h' hflags, hname, hdescriptor⟩

theorem maxima_inj (h : maxima method = maxima other) :
    method.maxStack = other.maxStack ∧ method.maxLocals = other.maxLocals := by
  unfold maxima at h
  split at h <;> split at h
  case isTrue.isTrue hzero hzero' =>
    exact ⟨hzero.1.trans hzero'.1.symm, hzero.2.trans hzero'.2.symm⟩
  case isFalse.isFalse =>
    have hitems := bracketed_inj (by simp [word_integer]) (by simp [word_integer])
      (List.cons.inj h).1
    simpa [UInt16.toNat_inj] using hitems
  all_goals cases h

/-- The lines are those of one method only, whether it has a table of variables or not. -/
theorem tabled_eq_of_linesOf (h : method.access = .ofBits .ofMethod method.access.bits)
    (h' : other.access = .ofBits .ofMethod other.access.bits) (hx : ExactCode method)
    (hx' : ExactCode other) (he : linesOf method = linesOf other) :
    method.tabled = other.tabled := by
  obtain ⟨hheader, hrest⟩ := List.cons.inj he
  have hpart : ∀ part : Part, part.lines method = part.lines other := by
    intro part
    rw [← filter_parts, hrest, filter_parts]
  obtain ⟨haccess, hname, hdescriptor⟩ := header_inj h h' hheader
  have hsignature : method.signature.toList = other.signature.toList :=
    map_inj_of_forall (fun _ _ _ _ heq => quotedCall_inj (statement_inj heq)) (hpart .signature)
  have hexceptions : method.exceptions = other.exceptions :=
    map_inj_of_forall (fun _ _ _ _ heq => quotedCall_inj (statement_inj heq)) (hpart .exceptions)
  have hlabels : method.body.labels = other.body.labels := by
    simpa [Part.lines] using congrArg List.length (hpart .labels)
  have hcode : method.body.code = other.body.code :=
    map_inj_of_forall (fun insn hm insn' hm' heq =>
      instruction_inj (hx insn hm) (hx' insn' hm') (statement_inj heq)) (hpart .code)
  have hhandlers : method.handlers = other.handlers :=
    map_inj_of_forall (fun _ _ _ _ heq => handler_inj (statement_inj heq)) (hpart .handlers)
  have hvariables : method.variableList = other.variableList :=
    map_inj_of_forall (fun _ _ _ _ heq => localVariable_inj (statement_inj heq)) (hpart .locals)
  obtain ⟨hstack, hlocals⟩ : method.maxStack = other.maxStack ∧
      method.maxLocals = other.maxLocals :=
    maxima_inj (map_inj_of_forall (fun _ _ _ _ => statement_inj) (hpart .maxima))
  have hattributes : method.attributes = other.attributes :=
    map_inj_of_forall (fun _ _ _ _ heq => rawAttribute_inj (statement_inj heq)) (hpart .attributes)
  rw [Method.tabled, Method.tabled, Method.mk.injEq]
  exact ⟨haccess, hname, hdescriptor, by simpa using congrArg List.head? hsignature, hexceptions,
    congrArg₂ Body.mk hcode hlabels, hhandlers, congrArg some hvariables, hstack, hlocals,
    hattributes⟩

theorem exactCode_relabelled (hx : ExactCode method) : ExactCode method.tabled.relabelled := by
  intro insn hm
  obtain ⟨old, hold, rfl⟩ := List.mem_map.mp hm
  intro value hvalue
  refine hx old hold value ?_
  cases old <;> exact hvalue

theorem tabled_relabelled (method : Method) :
    method.tabled.relabelled.tabled = method.tabled.relabelled :=
  rfl

/-- Methods have the same transcript if and only if they are the same once their labels are numbered
in the order of their appearance. -/
theorem ofMethod_eq_iff_relabelled (h : method.access = .ofBits .ofMethod method.access.bits)
    (h' : other.access = .ofBits .ofMethod other.access.bits) (hx : ExactCode method)
    (hx' : ExactCode other) : ofMethod true method = ofMethod true other ↔
      method.tabled.relabelled = other.tabled.relabelled := by
  rw [ofMethod_true, ofMethod_true]
  refine ⟨fun he => ?_, congrArg fun method => unlines (linesOf method)⟩
  have hexact := exactCode_relabelled hx
  have hexact' := exactCode_relabelled hx'
  have hlines := unlines_inj (fun _ hm => word_of_mem_linesOf hexact hm)
    (fun _ hm => word_of_mem_linesOf hexact' hm) he
  rw [← tabled_relabelled method, ← tabled_relabelled other]
  exact tabled_eq_of_linesOf h h' hexact hexact' hlines

end

theorem ofMethod_false (method : Method) :
    ofMethod false method = ofMethod true method.withoutDebug := by
  have hcode : shownCode true method.withoutDebug = shownCode false method := shownCode_true _
  have hnames : labelNames true method.withoutDebug = labelNames false method := by
    rw [labelNames, labelNames, hcode]
    rfl
  rw [ofMethod, ofMethod, methodLines, methodLines, hnames, hcode]
  rfl

/-- Transcripts determine methods. Two methods without floating-point literals, whose flags are all
ones with a meaning, have the same transcript if and only if one of them is the other one with its
labels renamed one to one; how many labels have been handed out for them makes no difference, nor
does an empty table of variables instead of none. The transcript without debugging information is
that of the method without lines and without its table of variables. -/
theorem ofMethod_determines (method other : Method)
    (h : method.access = .ofBits .ofMethod method.access.bits)
    (h' : other.access = .ofBits .ofMethod other.access.bits) (hx : ExactCode method)
    (hx' : ExactCode other) :
    (ofMethod true method = ofMethod true other ↔ method.tabled.RenamesTo other.tabled) ∧
      ∀ any : Method, ofMethod false any = ofMethod true any.withoutDebug := by
  refine ⟨?_, ofMethod_false⟩
  rw [ofMethod_eq_iff_relabelled h h' hx hx']
  exact ⟨Method.renamesTo_of_relabelled_eq, Method.RenamesTo.relabelled_eq⟩

namespace Looping

def looping (start stop : Label) (labels : Nat) : Method :=
  { Method.declared (.ofBits .ofMethod 8) "a\", (\nb" "()V" with
    exceptions := ["\");\nmethod.maxs(1, 1);"]
    body := ⟨[.label start, .line 7 start, .load (.string "\\\"));"), .plain .pop, .label stop,
      .jump .goto start], labels⟩
    handlers := [⟨start, stop, start, none⟩] }

def renamed (l : Label) : Label :=
  if l.index = 4 then ⟨0⟩ else ⟨1⟩

theorem exactCode_looping (start stop : Label) (labels : Nat) :
    ExactCode (looping start stop labels) := by
  simp [ExactCode, Exact, looping, Instruction.literals, Literal.isFloating]

/-- Labels may have any numbers, and a table without variables may be left out. -/
theorem ofMethod_looping :
    (ofMethod true (looping ⟨4⟩ ⟨2⟩ 9) = ofMethod true (looping ⟨0⟩ ⟨1⟩ 2).tabled) ∧
      ofMethod false (looping ⟨4⟩ ⟨2⟩ 9) = ofMethod true (looping ⟨4⟩ ⟨2⟩ 9).withoutDebug := by
  obtain ⟨hiff, hfalse⟩ :=
    ofMethod_determines (looping ⟨4⟩ ⟨2⟩ 9) (looping ⟨0⟩ ⟨1⟩ 2).tabled rfl rfl
    (exactCode_looping _ _ _) (exactCode_looping _ _ _)
  refine ⟨hiff.mpr (Method.renamesTo_of_injOn (f := renamed) ?_ rfl), hfalse _⟩
  have hmentions : ∀ l ∈ (looping ⟨4⟩ ⟨2⟩ 9).tabled.mentions, l = ⟨4⟩ ∨ l = ⟨2⟩ := by
    decide
  intro a ha b hb he
  rcases hmentions a ha with rfl | rfl <;> rcases hmentions b hb with rfl | rfl <;>
    first | rfl | cases he

end Looping

end Transcript
end ClassTree
