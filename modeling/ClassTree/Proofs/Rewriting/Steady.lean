import ClassTree.Proofs.Rewriting.Bare

namespace ClassTree

open Pool Build

namespace Class

variable {b : Builder} {hierarchy : Hierarchy} {tree : Class}

/-- Reads a class and writes it, with its frames and sizes computed. -/
def rewriteWith (hierarchy : Hierarchy) (bytes : Bytes) : Except Error Bytes := do
  (← ofBytes bytes).toBytesWith hierarchy

/-- Writing the class leaves its code as it is, given the pool that is written. Everything that is
counted can be. -/
structure Steady (hierarchy : Hierarchy) (tree : Class) (b : Builder) : Prop where
  stored : ∀ stored, tree.StoredAs b ⟨true, true⟩ hierarchy stored → stored.Fits b
  bootstrap : FitEntries BootstrapMethod.Fits b.bootstrap.toList
  innerClasses : tree.innerClasses.length < 0x10000
  exceptions : ∀ method ∈ tree.methods, method.exceptions.length < 0x10000
  handles : ∀ table ∈ tree.pool, table.PlainHandles
  methods : ∀ method ∈ tree.methods, method.writesCode = true → ∀ prepared,
    Yields (Code.prepare (tree.setting ⟨true, true⟩ hierarchy) method) b prepared b →
      prepared.Steady method

/-- The methods of a class that is read without frames have their code from listings. -/
theorem exists_gives_of_read {skip : Skip} {bytes : Bytes} (hskip : skip.frames = true)
    (h : Class.read skip bytes = .ok tree) (hplain : ∀ table ∈ tree.pool, table.PlainHandles) :
    ∀ method ∈ tree.methods, method.body.code ≠ [] → ∃ listing : Code.Listing,
      listing.Gives method ∧ ∀ entry ∈ listing.instructions, Code.AsRead entry.2 := by
  obtain ⟨header, plain, fields, methods, attributes, table, -, -, hpool, -, hmethods⟩ :=
    read_cases h
  intro method hm hcode
  obtain ⟨member, -, hmember⟩ := exists_of_mem_mapM hmethods hm
  exact Method.exists_gives (hplain table hpool) hskip hmember hcode

/-- What is written for a class whose code stays as it is, is read as a class with methods that are
written alike. -/
theorem exists_read_alike {stored : StoredClass} {bytes : Bytes} {parts : Parts} (hr : b.Reachable)
    (hc : tree.Canonical) (hs : tree.Steady hierarchy b)
    (hread : ∀ method ∈ tree.methods, method.body.code ≠ [] → ∃ listing : Code.Listing,
      listing.Gives method ∧ ∀ entry ∈ listing.instructions, Code.AsRead entry.2)
    (hstored : tree.StoredAs b ⟨true, true⟩ hierarchy stored)
    (hfound : stored.FoundAs b tree.version parts)
    (hparse : (Cursor.ofBytes bytes).parse readParts = .ok parts) : ∃ methods,
      ofBytes bytes = .ok { tree with methods, pool := some b.table } ∧
      List.Forall₂ (fun method again =>
        Build.Alike Eq (method.encode (tree.setting ⟨true, true⟩ hierarchy))
          (again.encode (tree.setting ⟨true, true⟩ hierarchy))) tree.methods methods := by
  have hsize : b.bootstrap.size ≤ 0x10000 := Nat.le_of_lt hs.bootstrap.1
  have hmembers := (hs.stored stored hstored).members
  obtain ⟨methods, hmethods, halike⟩ := exists_mapM_of_forall₂ hstored.methods hfound.methods
    fun method hm member hm' raw hs' hfound => Method.exists_ofRaw_alike hr hsize rfl
      (hc.methods method hm) (hread method hm) (hs.exceptions method hm) (hs.methods method hm)
      (hmembers member (List.mem_append_right _ hm')) hs' hfound
  exact ⟨methods, read_of_found hc hs.innerClasses hs.bootstrap hstored hfound hparse hmethods,
    halike⟩

/-- Rewriting a class twice is rewriting it once, if the first time leaves its code as it is. -/
theorem rewrite_rewrite {bytes once : Bytes} (h : rewriteWith hierarchy bytes = .ok once)
    (hsteady : ∀ tree body b, ofBytes bytes = .ok tree →
      Yields (tree.encodeBody ⟨true, true⟩ hierarchy) tree.startingPool body b →
        tree.Steady hierarchy b) :
    rewriteWith hierarchy once = .ok once := by
  obtain ⟨tree, hread, hwrite⟩ := bind_eq_ok.mp h
  obtain ⟨body, b, hy, rfl⟩ := write_eq_ok.mp hwrite
  have hs := hsteady tree body b hread hy
  obtain ⟨hc, hsupported, hpool⟩ := canonical_read hread hs.handles
  obtain ⟨-, hreach, encoded, hencodes, rfl⟩ := encodes_of_encodeBody hy
  have hr := hreach hpool.reachable
  obtain ⟨stored, hstored, hencoded⟩ := hencodes.exists_stored hr
  obtain ⟨parts, hfound, hparse⟩ := parse_readParts hsupported fun p =>
    hencoded.readsAs_contents hr (hs.stored stored hstored) p
  rw [← List.append_assoc] at hparse
  obtain ⟨methods, hagain, halike⟩ := exists_read_alike hr hc hs
    (exists_gives_of_read rfl hread hs.handles) hstored hfound hparse
  refine bind_eq_ok.mpr ⟨_, hagain, write_eq_ok.mpr ⟨encoded.encode, .ofTable b.table, ?_, rfl⟩⟩
  exact (alike_encodeBody _ _ halike).yields_iff.mp (hencodes.again hr.within_ofTable rfl).yields

end Class

namespace SingleMethod

open Code ClassTree.Flow

def bare : Option SlotFrame :=
  some ⟨[], []⟩

def state (frames : List (Option SlotFrame)) (pending : List Nat) : TypeState :=
  ⟨⟨frames.toArray, 0, 0⟩, ⟨pending, ((List.range frames.length).map pending.contains).toArray⟩⟩

def live : Listing :=
  ⟨0, 0, 5, [(0, .plain .nop), (1, .jump .goto 4), (4, .plain .returnVoid)], [], []⟩

theorem elements_live : live.elements =
    [.plain .nop, .jump .goto 4, .label 4, .plain .returnVoid] := by
  rw [Listing.elements_of_tables rfl]
  rfl

def liveCode : List (Instruction Label) :=
  [.plain .nop, .jump .goto ⟨0⟩, .label ⟨0⟩, .plain .returnVoid]

theorem body_live : (live.addedTo declared).body = ⟨liveCode, 1⟩ := by
  rw [@Listing.body_of_mention live 4 _ rfl, elements_live]
  rfl

def liveProgram : Program :=
  programOf context liveCode []

theorem position_live : liveProgram.positions[(⟨0⟩ : Label)]? = some 2 :=
  Std.HashMap.getElem?_insert_self

theorem visit_live (hierarchy : Hierarchy) (types : Std.HashMap Nat String) :
    TypeState.visit liveProgram hierarchy types (state [bare, bare, none, none] []) 1 =
      .ok (state [bare, bare, bare, none] [2]) := by
  have hf : liveProgram.positions.find ⟨0⟩ = .ok 2 := by rw [Positions.find, position_live]
  have hnext : successors liveProgram.code liveProgram.positions 1 (.jump .goto ⟨0⟩) = .ok [2] := by
    rw [successors, Instruction.jumpTargets, List.mapM_cons, hf]
    rfl
  change (_ >>= fun _ => (successors liveProgram.code liveProgram.positions 1
    (.jump .goto ⟨0⟩)).mapError _ >>= _) = _
  rw [hnext]
  rfl

theorem computeTypes_live (hierarchy : Hierarchy) : computeTypes hierarchy liveProgram =
    .ok ⟨#[bare, bare, bare, bare], 0, 0⟩ := by
  have hpop : liveProgram.start.pop = (some 0, state [bare, none, none, none] []) := rfl
  have hdrains : Drains TypeState.pop (TypeState.visit liveProgram hierarchy ∅) liveProgram.start
      [0, 1, 2, 3] (state [bare, bare, bare, bare] []) :=
    .visit hpop rfl (.visit rfl (visit_live hierarchy ∅) (.visit rfl rfl
      (.visit rfl rfl (.done rfl))))
  exact computeTypes_of_drains rfl (by decide) hdrains

def liveTable : FrameTable :=
  (∅ : FrameTable).insert 4 ⟨[], []⟩

def livePrepared : Prepared :=
  ⟨liveCode, #[0, 1, 4, 4, 5], [], liveTable, 0, 0⟩

theorem prepare_live (hierarchy : Hierarchy) :
    Yields (prepare (setting hierarchy) (live.addedTo declared)) pool livePrepared pool := by
  have hpoints : framePoints liveProgram = [2] := by
    change [(⟨0⟩ : Label)].filterMap (liveProgram.positions[·]?) ++ [] = _
    simp [position_live]
  have hframes : Yields (computedFrames liveProgram ⟨#[bare, bare, bare, bare], 0, 0⟩
      #[0, 1, 4, 4, 5]) pool liveTable pool := by
    rw [computedFrames, hpoints]
    rfl
  exact yields_prepare body_live rfl rfl (by decide) (by decide) (by decide) (by decide) rfl
    (by decide) (computeTypes_live hierarchy) hframes rfl

def liveInfo : Bytes :=
  [0, 0, 0, 0, 0, 0, 0, 5, 0, 167, 0, 3, 177, 0, 0, 0, 1, 0, 10, 0, 0, 0, 3, 0, 1, 4]

theorem info_live (hierarchy : Hierarchy) : Yields (attributeInfo (setting hierarchy)
    (live.addedTo declared)) pool liveInfo pool := by
  have hlabel : livePrepared.labelOffsets.at ⟨0⟩ = 4 := Std.HashMap.getD_insert_self
  have hencode : Yields (encode liveCode #[0, 1, 4, 4, 5] livePrepared.labelOffsets) pool
      [0, 167, 0, 3, 177] pool := by
    simp [encode, liveCode, Instruction.mapLabels, hlabel]
    rfl
  exact yields_info (prepare_live hierarchy) rfl rfl (by decide) rfl (by decide) hencode

/-- Contents of the code attribute before it is written: code that takes five bytes, for which no
sizes are given. -/
def bareInfo (array : Bytes) : Bytes :=
  [0, 0, 0, 0, 0, 0, 0, 5] ++ array ++ [0, 0, 0, 0]

theorem bareInfo_eq {array : Bytes} (h : array.length = 5) :
    bareInfo array = infoOf array 0 [] := by
  have hsize : BigEndian.u32 (UInt32.ofNat array.length) = [0, 0, 0, 5] := by
    rw [h]
    decide +kernel
  rw [infoOf, hsize]
  simp [bareInfo]
  rfl

theorem ofBytes_bareInfo {array : Bytes} {instructions : List (Nat × Instruction Nat)}
    (h : array.length = 5) (hdecode : ∀ base, decode table ⟨array, 0, base⟩ = .ok instructions)
    (hproper : ∀ offset ∈ (Listing.mk 0 0 5 instructions [] []).mentions,
      offset ∈ instructions.map Prod.fst) :
    Class.ofBytes (file (bareInfo array)) =
      .ok (tree ((Listing.mk 0 0 5 instructions [] []).addedTo declared)) := by
  have hinfo : (bareInfo array).length < 0x100000000 := by simp [bareInfo, h]
  refine ofBytes_file hinfo (fun base => ?_) hproper
  have hparse := @parse_infoOf array 0 [] [] instructions (by decide) (by simp [h])
    ⟨by decide, nofun⟩ .nil nofun hdecode base
  rw [h] at hparse
  rwa [bareInfo_eq h]

theorem ofBytes_live : Class.ofBytes (file (bareInfo [0, 167, 0, 3, 177])) =
    .ok (tree (live.addedTo declared)) :=
  ofBytes_bareInfo rfl (fun _ => rfl) (by decide)

theorem rewrite_live (hierarchy : Hierarchy) :
    Class.rewriteWith hierarchy (file (bareInfo [0, 167, 0, 3, 177])) = .ok (file liveInfo) :=
  bind_eq_ok.mpr ⟨_, ofBytes_live, write_tree (info_live hierarchy) (by simp [elements_live])⟩

theorem steady_livePrepared : livePrepared.Steady (live.addedTo declared) := by
  have hvariables : (live.addedTo declared).variableList = [] := rfl
  exact
  { code := by rw [body_live]; rfl
    switches := by rw [body_live]; simp [liveCode]
    ranges := nofun
    variables_ := by rw [hvariables]; nofun
    keys := by rw [hvariables]; exact .nil
    handlerCount := by decide
    lineCount := by rw [body_live]; decide
    variableCount := by rw [hvariables]; decide }

theorem steady_live (hierarchy : Hierarchy) :
    (tree (live.addedTo declared)).Steady hierarchy pool where
  stored _ h := fits_storedAs (info_live hierarchy) (by simp [elements_live]) (by decide) h
  bootstrap := ⟨by decide, nofun⟩
  innerClasses := by decide
  exceptions := by
    intro method hm
    obtain rfl := List.mem_singleton.mp hm
    decide
  handles := by
    rintro _ ⟨⟩
    exact plainHandles_table
  methods := by
    intro method hm _ prepared hy
    obtain rfl := List.mem_singleton.mp hm
    rw [← (prepare_live hierarchy).value_eq hy]
    exact steady_livePrepared

/-- A frame is added the first time, and nothing changes the second time. -/
theorem rewrite_live_again :
    Class.rewriteWith .library (file (bareInfo [0, 167, 0, 3, 177])) = .ok (file liveInfo) ∧
      (∀ tree body b, Class.ofBytes (file (bareInfo [0, 167, 0, 3, 177])) = .ok tree →
        Yields (tree.encodeBody ⟨true, true⟩ .library) tree.startingPool body b →
          tree.Steady .library b) ∧
      Class.rewriteWith .library (file liveInfo) = .ok (file liveInfo) := by
  have hsteady : ∀ tree body b, Class.ofBytes (file (bareInfo [0, 167, 0, 3, 177])) = .ok tree →
      Yields (tree.encodeBody ⟨true, true⟩ .library) tree.startingPool body b →
        tree.Steady .library b := by
    intro read body b hread hy
    obtain rfl := Except.ok.inj (ofBytes_live.symm.trans hread)
    have hbody := yields_body (info_live .library) (by simp [elements_live])
    obtain ⟨-, rfl⟩ := Prod.mk.inj (Eq.trans (Eq.symm hbody) hy)
    exact steady_live .library
  exact ⟨rewrite_live .library, hsteady, Class.rewrite_rewrite (rewrite_live .library) hsteady⟩

def dead : Listing :=
  ⟨0, 0, 5, [(0, .plain .nop), (1, .plain .returnVoid), (2, .jump .goto 1)], [], []⟩

theorem elements_dead : dead.elements =
    [.plain .nop, .label 1, .plain .returnVoid, .jump .goto 1] := by
  rw [Listing.elements_of_tables rfl]
  rfl

def deadCode : List (Instruction Label) :=
  [.plain .nop, .label ⟨0⟩, .plain .returnVoid, .jump .goto ⟨0⟩]

theorem body_dead : (dead.addedTo declared).body = ⟨deadCode, 1⟩ := by
  rw [@Listing.body_of_mention dead 1 _ rfl, elements_dead]
  rfl

def deadProgram : Program :=
  programOf context deadCode []

theorem computeTypes_dead (hierarchy : Hierarchy) : computeTypes hierarchy deadProgram =
    .ok ⟨#[bare, bare, bare, none], 0, 0⟩ := by
  have hpop : deadProgram.start.pop = (some 0, state [bare, none, none, none] []) := rfl
  have hdrains : Drains TypeState.pop (TypeState.visit deadProgram hierarchy ∅) deadProgram.start
      [0, 1, 2] (state [bare, bare, bare, none] []) :=
    .visit hpop rfl (.visit rfl rfl (.visit rfl rfl (.done rfl)))
  exact computeTypes_of_drains rfl (by decide) hdrains

def thrown : StackMap.EncodedFrame :=
  ⟨[], [.object 9]⟩

theorem yields_deadFrame : Yields deadFrame pool thrown pool := by
  have hthrowable : Yields (Build.classRef "java/lang/Throwable") pool 9 pool :=
    Builder.yields_classRef_ofTable 8 (by decide) (by decide)
  exact yields_bind.mpr ⟨9, pool, hthrowable, rfl⟩

def deadTable : FrameTable :=
  (∅ : FrameTable).insert 1 ⟨[], []⟩

def deadPrepared : Prepared :=
  ⟨[.plain .nop, .label ⟨0⟩, .plain .returnVoid, .label ⟨1⟩, .plain .nop, .plain .nop,
    .plain .athrow, .label ⟨2⟩], #[0, 1, 1, 2, 2, 3, 4, 5, 5], [], deadTable.insert 2 thrown, 1, 0⟩

theorem prepare_dead (hierarchy : Hierarchy) :
    Yields (prepare (setting hierarchy) (dead.addedTo declared)) pool deadPrepared pool := by
  have hposition : deadProgram.positions[(⟨0⟩ : Label)]? = some 1 :=
    Std.HashMap.getElem?_insert_self
  have hpoints : framePoints deadProgram = [1] := by
    change [(⟨0⟩ : Label)].filterMap (deadProgram.positions[·]?) ++ [] = _
    simp [hposition]
  have hframes : Yields (computedFrames deadProgram ⟨#[bare, bare, bare, none], 0, 0⟩
      #[0, 1, 1, 2, 5]) pool deadTable pool := by
    rw [computedFrames, hpoints]
    rfl
  have hdead : Yields (withoutDead ⟨deadCode, 1, #[0, 1, 1, 2, 5]⟩
      ⟨#[bare, bare, bare, none], 0, 0⟩ [] deadTable) pool deadPrepared pool :=
    yields_bind.mpr ⟨thrown, pool, yields_deadFrame, rfl⟩
  exact yields_prepare body_dead rfl rfl (by decide) (by decide) (by decide) (by decide) rfl
    (by decide) (computeTypes_dead hierarchy) hframes hdead

def deadInfo : Bytes :=
  [0, 1, 0, 0, 0, 0, 0, 5, 0, 177, 0, 0, 191, 0, 0, 0, 1, 0, 10, 0, 0, 0, 7, 0, 2, 1, 64, 7, 0, 9]

theorem info_dead (hierarchy : Hierarchy) : Yields (attributeInfo (setting hierarchy)
    (dead.addedTo declared)) pool deadInfo pool :=
  yields_info (prepare_dead hierarchy) rfl rfl (by decide) rfl (by decide) rfl

/-- What is read when the jump has been replaced. -/
def replaced : Listing :=
  ⟨1, 0, 5, [(0, .plain .nop), (1, .plain .returnVoid), (2, .plain .nop), (3, .plain .nop),
    (4, .plain .athrow)], [], []⟩

def replacedCode : List (Instruction Label) :=
  [.plain .nop, .plain .returnVoid, .plain .nop, .plain .nop, .plain .athrow]

theorem elements_replaced : replaced.elements =
    [.plain .nop, .plain .returnVoid, .plain .nop, .plain .nop, .plain .athrow] := by
  rw [Listing.elements_of_tables rfl]
  rfl

theorem body_replaced : (replaced.addedTo declared).body = ⟨replacedCode, 0⟩ := by
  rw [Listing.addedTo, elements_replaced]
  rfl

def replacedProgram : Program :=
  programOf context replacedCode []

theorem computeTypes_replaced (hierarchy : Hierarchy) : computeTypes hierarchy replacedProgram =
    .ok ⟨#[bare, bare, none, none, none], 0, 0⟩ := by
  have hpop : replacedProgram.start.pop = (some 0, state [bare, none, none, none, none] []) := rfl
  have hdrains : Drains TypeState.pop (TypeState.visit replacedProgram hierarchy ∅)
      replacedProgram.start [0, 1] (state [bare, bare, none, none, none] []) :=
    .visit hpop rfl (.visit rfl rfl (.done rfl))
  exact computeTypes_of_drains rfl (by decide) hdrains

def replacedPrepared : Prepared :=
  ⟨[.plain .nop, .plain .returnVoid, .label ⟨0⟩, .plain .nop, .plain .nop, .plain .athrow,
    .label ⟨1⟩], #[0, 1, 2, 2, 3, 4, 5, 5], [], (∅ : FrameTable).insert 2 thrown, 1, 0⟩

theorem prepare_replaced (hierarchy : Hierarchy) : Yields (prepare (setting hierarchy)
    (replaced.addedTo declared)) pool replacedPrepared pool := by
  have hdead : Yields (withoutDead ⟨replacedCode, 0, #[0, 1, 2, 3, 4, 5]⟩
      ⟨#[bare, bare, none, none, none], 0, 0⟩ [] ∅) pool replacedPrepared pool :=
    yields_bind.mpr ⟨thrown, pool, yields_deadFrame, rfl⟩
  exact yields_prepare body_replaced rfl rfl (by decide) (by decide) (by decide) (by decide) rfl
    (by decide) (computeTypes_replaced hierarchy) rfl hdead

def replacedInfo : Bytes :=
  [0, 1, 0, 0, 0, 0, 0, 5, 0, 177, 0, 0, 191, 0, 0, 0, 1, 0, 10, 0, 0, 0, 6, 0, 1, 66, 7, 0, 9]

theorem info_replaced (hierarchy : Hierarchy) : Yields (attributeInfo (setting hierarchy)
    (replaced.addedTo declared)) pool replacedInfo pool :=
  yields_info (prepare_replaced hierarchy) rfl rfl (by decide) rfl (by decide) rfl

theorem ofBytes_dead : Class.ofBytes (file (bareInfo [0, 177, 167, 255, 255])) =
    .ok (tree (dead.addedTo declared)) :=
  ofBytes_bareInfo rfl (fun _ => rfl) (by decide)

theorem ofBytes_replaced :
    Class.ofBytes (file deadInfo) = .ok (tree (replaced.addedTo declared)) := by
  let frames : RawAttribute := ⟨"StackMapTable", [0, 2, 1, 64, 7, 0, 9]⟩
  have htext : table.text 10 = .ok "StackMapTable" :=
    text_found (Builder.yields_constant_ofTable (by decide)) (.refl _) reachable_pool.sound
  have hencoded : frames.EncodedAs table ([0, 10, 0, 0, 0, 7] ++ frames.info) :=
    ⟨10, htext, by decide +kernel⟩
  have hinfo : deadInfo =
      infoOf [0, 177, 0, 0, 191] 1 [[0, 10, 0, 0, 0, 7] ++ frames.info] := by
    decide +kernel
  have hfits : frames.Fits := show 7 < 0x100000000 by decide
  refine ofBytes_file (by decide) (fun base => ?_) (by decide)
  rw [hinfo]
  exact parse_infoOf (by decide) (by decide) ⟨by decide, List.forall_mem_singleton.mpr hfits⟩
    (.cons hencoded .nil) (List.forall_mem_singleton.mpr rfl) (fun _ => rfl) base

/-- The frame is there the first time, and gone the second time. -/
theorem rewrite_dead_differs :
    Class.rewriteWith .library (file (bareInfo [0, 177, 167, 255, 255])) = .ok (file deadInfo) ∧
      Class.rewriteWith .library (file deadInfo) = .ok (file replacedInfo) ∧
      file deadInfo ≠ file replacedInfo := by
  have hfirst := write_tree (info_dead .library) (by simp [elements_dead])
  have hsecond := write_tree (info_replaced .library) (by simp [elements_replaced])
  have hlength : (file deadInfo).length ≠ (file replacedInfo).length := by decide +kernel
  exact ⟨bind_eq_ok.mpr ⟨_, ofBytes_dead, hfirst⟩, bind_eq_ok.mpr ⟨_, ofBytes_replaced, hsecond⟩,
    fun h => hlength (congrArg List.length h)⟩

end SingleMethod

end ClassTree
