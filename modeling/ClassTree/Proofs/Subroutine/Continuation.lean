import ClassTree.Proofs.Subroutine.Copies

namespace ClassTree.Subroutine

/-- The first place, from an index on, of something other than a marker. -/
def nextReal (code : List (Instruction Label)) (i : Nat) : Option Nat :=
  ((code.drop i).findIdx? fun insn => !insn.isMarker).map (· + i)

/-- Where the copy at a place has what it emits for an index. -/
def start (copies : List Copy) (k i : Nat) : Nat :=
  ((copies.take k).flatMap Copy.code).length +
    (((copies[k]?.map Copy.pieces).getD []).take i).flatten.length

theorem nextReal_spec {code : List (Instruction Label)} {i j : Nat}
    (h : nextReal code i = some j) :
    i ≤ j ∧ (∃ insn, code[j]? = some insn ∧ insn.isMarker = false) ∧
      ∀ m insn, i ≤ m → m < j → code[m]? = some insn → insn.isMarker = true := by
  obtain ⟨n, hn, rfl⟩ := Option.map_eq_some_iff.mp h
  obtain ⟨hlt, hreal, hmarkers⟩ := List.findIdx?_eq_some_iff_getElem.mp hn
  refine ⟨Nat.le_add_left i n, ?_, ?_⟩
  · refine ⟨(code.drop i)[n], ?_, by simpa using hreal⟩
    rw [← List.getElem?_eq_getElem hlt, List.getElem?_drop, Nat.add_comm]
  · intro m insn him hmn hm
    have hlt' : m - i < n := by omega
    have hx := hmarkers (m - i) hlt'
    have hget : (code.drop i)[m - i]? = some insn := by
      rw [List.getElem?_drop, Nat.add_sub_cancel' him, hm]
    obtain ⟨hb, hget⟩ := List.getElem?_eq_some_iff.mp hget
    simpa [hget] using hx

theorem nextReal_of_real {code : List (Instruction Label)} {i : Nat} {insn : Instruction Label}
    (hat : code[i]? = some insn) (hreal : insn.isMarker = false) :
    nextReal code i = some i := by
  obtain ⟨hlt, rfl⟩ := List.getElem?_eq_some_iff.mp hat
  rw [nextReal, List.drop_eq_getElem_cons hlt, List.findIdx?_cons, hreal]
  simp

theorem nextReal_of_marker {code : List (Instruction Label)} {i : Nat} {insn : Instruction Label}
    (hat : code[i]? = some insn) (hm : insn.isMarker = true) :
    nextReal code i = nextReal code (i + 1) := by
  obtain ⟨hlt, rfl⟩ := List.getElem?_eq_some_iff.mp hat
  rw [nextReal, List.drop_eq_getElem_cons hlt, List.findIdx?_cons, hm]
  simp only [nextReal, Bool.not_true, Bool.false_eq_true, if_false, Option.map_map]
  congr 1
  funext n
  exact (Nat.add_right_comm n 1 i).trans (Nat.add_assoc n i 1)

theorem nextReal_eq_none {code : List (Instruction Label)} {i : Nat} (h : nextReal code i = none)
    {m : Nat} {insn : Instruction Label} (him : i ≤ m) (hm : code[m]? = some insn) :
    insn.isMarker = true := by
  have hmem : insn ∈ code.drop i := by
    refine List.mem_of_getElem? (i := m - i) ?_
    rwa [List.getElem?_drop, Nat.add_sub_cancel' him]
  simpa using List.findIdx?_eq_none_iff.mp (Option.map_eq_none_iff.mp h) insn hmem

/-- Behind nothing but markers comes what is behind them. -/
theorem nextReal_append {before between after : List (Instruction Label)}
    {insn : Instruction Label} (hm : ∀ other ∈ between, other.isMarker = true)
    (hi : insn.isMarker = false) :
    nextReal (before ++ (between ++ insn :: after)) before.length =
      some (before.length + between.length) := by
  unfold nextReal
  rw [List.drop_left]
  have hf : (between ++ insn :: after).findIdx? (fun insn => !insn.isMarker) =
      some between.length := by
    rw [List.findIdx?_append, List.findIdx?_eq_none_iff.mpr (by simpa using hm)]
    simp [List.findIdx?_cons, hi]
  rw [hf, Option.map_some, Nat.add_comm]

variable {job : Job} {body : Subroutine} {copies : List Copy} {code : List (Instruction Label)}
  {k i j : Nat} {copy : Copy}

/-- The copy at a place emits an element which another copy, that is the same or within it,
claims. -/
structure OwnedBy (copies : List Copy) (k : Nat) (copy : Copy) (j o : Nat) (owner : Copy) :
    Prop where
  mem : o ∈ k :: copy.enclosing
  le : o ≤ k
  at_ : copies[o]? = some owner
  owns : owner.nesting.owns j = true
  inner : (copy.nesting.inner :: copy.nesting.outer).reverse.find? (·.subroutine.claims j) =
    some owner.nesting.inner

/-- Of a copy and those around it, the outermost one that claims an element emits it. -/
theorem ownedBy_or_unclaimed (hd : Copied job body copies code) (j : Nat)
    (hk : copies[k]? = some copy) :
    (∃ o owner, OwnedBy copies k copy j o owner) ∨
      (copy.nesting.inner :: copy.nesting.outer).reverse.find? (·.subroutine.claims j) = none := by
  induction k using Nat.strongRecOn generalizing copy with
  | ind k ih =>
    have hself (houter : copy.nesting.outer.reverse.find? (·.subroutine.claims j) = none) :
        (∃ o owner, OwnedBy copies k copy j o owner) ∨
          (copy.nesting.inner :: copy.nesting.outer).reverse.find? (·.subroutine.claims j) =
            none := by
      rw [List.reverse_cons, List.find?_append, houter]
      cases hc : copy.nesting.inner.subroutine.claims j with
      | false => exact .inr (by simp [hc])
      | true =>
        refine .inl ⟨k, copy, by simp, Nat.le_refl k, hk, ?_, ?_⟩
        · simpa [Nesting.owns, hc] using houter
        · rw [List.reverse_cons, List.find?_append, houter]
          simp [hc]
    generalize henc : copy.enclosing = enclosing
    have hin := hd.enclosed hk
    rw [henc] at hin
    cases hin with
    | outermost alone => exact hself (by simp [alone])
    | @within p parent hat nested =>
      have hp : p < k := by
        have := (List.getElem?_eq_some_iff.mp hat).1
        rw [List.length_take] at this
        omega
      rw [List.getElem?_take_of_lt hp] at hat
      rcases ih p hp hat with ⟨o, owner, ho⟩ | hnone
      · refine .inl ⟨o, owner, ?_, ?_, ho.at_, ho.owns, ?_⟩
        · rw [henc]
          exact List.mem_cons_of_mem _ ho.mem
        · exact Nat.le_trans ho.le (Nat.le_of_lt hp)
        · rw [List.reverse_cons, List.find?_append, nested, ho.inner]
          rfl
      · exact hself (nested ▸ hnone)

theorem isMarker_resolve {nesting : Nesting} {insn copied : Instruction Label}
    (h : job.resolve nesting insn = .ok copied) : copied.isMarker = insn.isMarker := by
  obtain ⟨resolved, -, h⟩ := bind_eq_ok.mp h
  rw [← pure_eq_ok.mp h]
  exact Instruction.isMarker_mapLabels _ insn

/-- For an instruction of its own, an instance emits one, or several. -/
theorem Piece.real {nesting : Nesting} {insn : Instruction Label}
    {piece : List (Instruction Label)} (h : Piece job nesting i insn piece)
    (own : nesting.owns i = true) (real : insn.isMarker = false) :
    ∃ first rest, piece = first :: rest ∧ first.isMarker = false := by
  cases h with
  | label | shared | frame => cases real
  | hidden _ other => rw [own] at other; cases other
  | ret | call => exact ⟨_, _, rfl, rfl⟩
  | copy _ _ _ _ _ resolved => exact ⟨_, _, rfl, isMarker_resolve resolved ▸ real⟩

/-- For a marker, an instance emits nothing but markers. -/
theorem Piece.marker {nesting : Nesting} {insn : Instruction Label}
    {piece : List (Instruction Label)} (h : Piece job nesting i insn piece)
    (marker : insn.isMarker = true) : ∀ other ∈ piece, other.isMarker = true := by
  cases h with
  | label => simp [Instruction.isMarker, Instruction.opcode?]
  | shared | hidden | frame => simp
  | ret | call => cases marker
  | copy _ _ _ _ _ resolved => simpa [isMarker_resolve resolved] using marker

theorem Copied.piece (hd : Copied job body copies code) (hk : copies[k]? = some copy)
    {insn : Instruction Label} (hat : job.outline.method.body.code[i]? = some insn) :
    ∃ piece, copy.pieces[i]? = some piece ∧ Piece job copy.nesting i insn piece := by
  have hf := hd.pieces copy (List.mem_of_getElem? hk)
  have hlt : i < copy.pieces.length := by
    have hl := hf.length_eq
    rw [List.length_zipIdx] at hl
    exact hl ▸ (List.getElem?_eq_some_iff.mp hat).1
  obtain ⟨hlt', hget⟩ := List.getElem?_eq_some_iff.mp hat
  refine ⟨copy.pieces[i], List.getElem?_eq_getElem hlt, ?_⟩
  have hp := hf.get (i := i) (by simpa using hlt') hlt
  simpa [hget] using hp

/-- The code, cut before what a copy emits for an index. -/
theorem Copied.cut (hd : Copied job body copies code) (hk : copies[k]? = some copy) (i : Nat) :
    ∃ before, code = before ++ ((copy.pieces.drop i).flatten ++
      (copies.drop (k + 1)).flatMap Copy.code) ∧ before.length = start copies k i := by
  refine ⟨(copies.take k).flatMap Copy.code ++ (copy.pieces.take i).flatten, ?_, ?_⟩
  · obtain ⟨hlt, hget⟩ := List.getElem?_eq_some_iff.mp hk
    have hsplit : copies = copies.take k ++ copy :: copies.drop (k + 1) := by
      rw [← hget, List.getElem_cons_drop, List.take_append_drop]
    have hcopy : copy.code = (copy.pieces.take i).flatten ++ (copy.pieces.drop i).flatten := by
      rw [← List.flatten_append, List.take_append_drop]
      rfl
    conv_lhs => rw [hd.code, hsplit, List.flatMap_append, List.flatMap_cons, hcopy]
    simp only [List.append_assoc]
  · rw [start, hk, List.length_append]
    rfl

theorem start_mono_place (hk : copies[k]? = some copy) {o : Nat} (ho : o < k) (i j : Nat) :
    start copies o j ≤ start copies k i := by
  have hlt := (List.getElem?_eq_some_iff.mp hk).1
  have hget : copies[o]? = some copies[o] := by simp
  have hle : ((copies[o].pieces).take j).flatten.length ≤ copies[o].code.length := by
    have hc : copies[o].code =
        (copies[o].pieces.take j).flatten ++ (copies[o].pieces.drop j).flatten := by
      rw [← List.flatten_append, List.take_append_drop]
      rfl
    rw [hc, List.length_append]
    exact Nat.le_add_right _ _
  have hpre : copies.take (o + 1) <+: copies.take k := List.take_prefix_take_left ho
  have hlen : ((copies.take (o + 1)).flatMap Copy.code).length ≤
      ((copies.take k).flatMap Copy.code).length := by
    obtain ⟨more, hmore⟩ := hpre
    rw [← hmore, List.flatMap_append, List.length_append]
    exact Nat.le_add_right _ _
  rw [List.take_add_one, hget] at hlen
  simp only [Option.toList_some, List.flatMap_append, List.flatMap_singleton,
    List.length_append] at hlen
  unfold start
  rw [hget]
  simp only [Option.map_some, Option.getD_some]
  omega

/-- Elements that an instance does not emit leave nothing but labels. -/
theorem Piece.hides {nesting : Nesting} {insn : Instruction Label}
    {piece : List (Instruction Label)} (h : Piece job nesting i insn piece)
    (other : nesting.owns i = false) : ∀ insn ∈ piece, insn.isMarker = true := by
  cases h with
  | label => simp [Instruction.isMarker, Instruction.opcode?]
  | shared | hidden => simp
  | frame own | ret own | call own | copy own => rw [own] at other; cases other

/-- From the place of an index on, a copy goes on with the first instruction that it emits. -/
theorem nextReal_of_emitted (hd : Copied job body copies code) (hk : copies[k]? = some copy)
    {insn : Instruction Label} (hij : i ≤ j)
    (hat : job.outline.method.body.code[j]? = some insn) (hreal : insn.isMarker = false)
    (own : copy.nesting.owns j = true)
    (hskipped : ∀ m other, i ≤ m → m < j → job.outline.method.body.code[m]? = some other →
      other.isMarker = true ∨ copy.nesting.owns m = false) :
    nextReal code (start copies k i) = some (start copies k j) := by
  obtain ⟨piece, hpiece, hp⟩ := hd.piece hk hat
  obtain ⟨first, rest, rfl, hfirst⟩ := hp.real own hreal
  obtain ⟨before, hcode, hlen⟩ := hd.cut hk i
  obtain ⟨hjlt, hjget⟩ := List.getElem?_eq_some_iff.mp hpiece
  have hsplit : copy.pieces.drop i =
      (copy.pieces.drop i).take (j - i) ++ (first :: rest) :: copy.pieces.drop (j + 1) := by
    conv_lhs => rw [← List.take_append_drop (j - i) (copy.pieces.drop i)]
    rw [List.drop_drop, Nat.add_sub_cancel' hij, ← List.getElem_cons_drop hjlt, hjget]
  have hbetween : ∀ other ∈ ((copy.pieces.drop i).take (j - i)).flatten,
      other.isMarker = true := by
    intro other hother
    obtain ⟨piece, hpiece, hother⟩ := List.mem_flatten.mp hother
    obtain ⟨n, hn⟩ := List.getElem?_of_mem hpiece
    have hnlt : n < j - i := by
      have := (List.getElem?_eq_some_iff.mp hn).1
      rw [List.length_take] at this
      omega
    rw [List.getElem?_take_of_lt hnlt, List.getElem?_drop] at hn
    have hlt : i + n < job.outline.method.body.code.length := by
      have := (List.getElem?_eq_some_iff.mp hat).1
      omega
    have hin := List.getElem?_eq_getElem hlt
    obtain ⟨piece', hpiece', hp'⟩ := hd.piece hk hin
    obtain rfl := Option.some.inj (hn.symm.trans hpiece')
    rcases hskipped (i + n) _ (by omega) (by omega) hin with hmarker | hother'
    · exact hp'.marker hmarker other hother
    · exact hp'.hides hother' other hother
  have hstart : start copies k j =
      start copies k i + ((copy.pieces.drop i).take (j - i)).flatten.length := by
    unfold start
    rw [hk]
    simp only [Option.map_some, Option.getD_some]
    have htake : copy.pieces.take j = copy.pieces.take i ++ (copy.pieces.drop i).take (j - i) := by
      rw [← List.take_add, Nat.add_sub_cancel' hij]
    rw [htake, List.flatten_append, List.length_append, Nat.add_assoc]
  rw [hcode, hsplit, hstart, ← hlen, List.flatten_append, List.flatten_cons, List.append_assoc,
    List.cons_append, List.cons_append]
  exact nextReal_append hbetween hfirst

/-- A copy that emits what comes next goes on with it; there is nothing but markers before. -/
theorem nextReal_of_owns (hd : Copied job body copies code) (hk : copies[k]? = some copy)
    (hj : nextReal job.outline.method.body.code i = some j) (own : copy.nesting.owns j = true) :
    nextReal code (start copies k i) = some (start copies k j) := by
  obtain ⟨hij, ⟨insn, hat, hreal⟩, hmarkers⟩ := nextReal_spec hj
  exact nextReal_of_emitted hd hk hij hat hreal own
    fun m other him hmj hm => .inl (hmarkers m other him hmj hm)

theorem start_succ (hk : copies[k]? = some copy) {piece : List (Instruction Label)}
    (hp : copy.pieces[i]? = some piece) :
    start copies k (i + 1) = start copies k i + piece.length := by
  unfold start
  rw [hk]
  simp only [Option.map_some, Option.getD_some, List.take_add_one, hp, Option.toList_some,
    List.flatten_append, List.flatten_singleton, List.length_append, Nat.add_assoc]

/-- What control continues with belongs to a subroutine too, with the markers before it. -/
theorem claims_nextReal {outline : Outline} {subroutine : Subroutine}
    (hcode : outline.code = outline.method.body.code.toArray)
    (hclosed : outline.Closed subroutine.members) {insn : Instruction Label}
    (hi : subroutine.claims i = true) (hat : outline.method.body.code[i]? = some insn)
    (hcont : Outline.continues insn = true)
    (hj : nextReal outline.method.body.code (i + 1) = some j) : subroutine.claims j = true := by
  obtain ⟨hij, ⟨last, hlast, -⟩, hmarkers⟩ := nextReal_spec hj
  have hlen := (List.getElem?_eq_some_iff.mp hlast).1
  have hsize : outline.code.size = outline.method.body.code.length := by simp [hcode]
  have hall : ∀ n, i + 1 + n ≤ j → subroutine.claims (i + 1 + n) = true := by
    intro n
    induction n with
    | zero =>
      intro hle
      exact hclosed.continued hi (by simpa [hcode] using hat) hcont (by omega)
    | succ n ih =>
      intro hle
      have hlt : i + 1 + n < outline.method.body.code.length := by omega
      have hget := List.getElem?_eq_getElem hlt
      have hm := hmarkers (i + 1 + n) _ (by omega) (by omega) hget
      have hin : outline.code[i + 1 + n]? = some outline.method.body.code[i + 1 + n] := by
        rw [hcode, List.getElem?_toArray, hget]
      refine hclosed.continued (i := i + 1 + n) (ih (by omega)) hin ?_ (by omega)
      rw [Instruction.isMarker, Option.isNone_iff_eq_none] at hm
      rw [Outline.continues, hm]
      rfl
  have := hall (j - (i + 1)) (by omega)
  rwa [Nat.add_sub_cancel' hij] at this

/-- After the copy of an instruction that control can continue from comes the copy of the next one
in the instance that emits it, exactly if that is the same instance: nothing leads from a copy to
one around it. -/
theorem inlineSubroutines_continues {method out : Method} (hc : method.callsSubroutines = true)
    (h : method.inlineSubroutines = .ok out) :
    ∃ body called copies, (Outline.ofMethod method).subroutines = .ok (body, called) ∧
      Copied ⟨.ofMethod method, called⟩ body copies out.body.code ∧
      ∀ {k i j : Nat} {copy : Copy} {insn : Instruction Label}, copies[k]? = some copy →
        copy.nesting.owns i = true → method.body.code[i]? = some insn →
        insn.isMarker = false → Outline.continues insn = true →
        nextReal method.body.code (i + 1) = some j →
        ∃ o owner, OwnedBy copies k copy j o owner ∧
          copy.nesting.owner? j = some owner.nesting.inner ∧
          (nextReal out.body.code (start copies k (i + 1)) = some (start copies o j) ↔ o = k) := by
  obtain ⟨body, called, copies, hs, hd⟩ := copied_inlineSubroutines hc h
  refine ⟨body, called, copies, hs, hd, ?_⟩
  intro k i j copy insn hk own hat hreal hcont hj
  have hi : copy.nesting.inner.subroutine.claims i = true := by
    rw [Nesting.owns, Bool.and_eq_true] at own
    exact own.1
  have hclosed := Outline.closed_subroutines hs _ (hd.known copy (List.mem_of_getElem? hk))
  have hcode : (Outline.ofMethod method).code = method.body.code.toArray := rfl
  have hclaims := claims_nextReal hcode hclosed hi hat hcont hj
  obtain ⟨o, owner, ho⟩ := (ownedBy_or_unclaimed hd j hk).resolve_right (by
    intro hnone
    have := List.find?_eq_none.mp hnone copy.nesting.inner (by simp)
    exact this hclaims)
  refine ⟨o, owner, ho, by rw [Nesting.owner?, if_pos hclaims, ho.inner], ?_, ?_⟩
  · intro hnext
    by_contra hne
    have hlt : o < k := Nat.lt_of_le_of_ne ho.le hne
    obtain ⟨piece, hpiece, hp⟩ := hd.piece hk hat
    obtain ⟨first, rest, rfl, -⟩ := hp.real own hreal
    have hstart := start_succ hk hpiece
    have hbefore := start_mono_place hk hlt i j
    have hafter := (nextReal_spec hnext).1
    rw [List.length_cons] at hstart
    omega
  · rintro rfl
    obtain rfl := Option.some.inj (hk.symm.trans ho.at_)
    exact nextReal_of_owns hd hk hj ho.owns

theorem emitElement_label {nesting : Nesting} {label clone : Label} {state : Emission}
    (h : nesting.inner.labels[label]? = some clone) :
    job.emitElement nesting state (.label label, i) = .ok (if state.previous = some clone
      then state
      else { state with previous := some clone, code := .label clone :: state.code }) := by
  change (job.rangeLabel nesting label >>= _) = _
  rw [Job.rangeLabel, h]
  change (if _ then _ else _) = _
  split <;> rfl

/-- A subroutine that does not return, but runs into the code after its call. -/
def runningIn : Method :=
  { Method.declared (.ofBits .ofMethod 0) "run" "()V" with
    body := ⟨[.jump .jsr ⟨0⟩, .jump .goto ⟨1⟩, .label ⟨0⟩, .var .astore 0, .label ⟨1⟩,
      .plain .returnVoid], 2⟩ }

namespace RunningIn

def caller : Subroutine := ⟨none, #[true, true, false, false, true, true]⟩

def callee : Subroutine := ⟨some ⟨0⟩, #[false, false, true, true, true, true]⟩

def inlining : Job := ⟨.ofMethod runningIn, [callee]⟩

def callerCopy : Nesting :=
  ⟨⟨caller, none, ((∅ : Std.HashMap Label Label).insert ⟨0⟩ ⟨0⟩).insert ⟨1⟩ ⟨0⟩⟩, []⟩

def calleeCopy : Nesting :=
  ⟨⟨callee, some ⟨1⟩, ((∅ : Std.HashMap Label Label).insert ⟨0⟩ ⟨2⟩).insert ⟨1⟩ ⟨3⟩⟩,
    [callerCopy.inner]⟩

theorem position_eq :
    inlining.outline.position ⟨0⟩ = .ok 2 ∧ inlining.outline.position ⟨1⟩ = .ok 4 := by
  have hp : inlining.outline.positions = ((∅ : Flow.Positions).insert ⟨0⟩ 2).insert ⟨1⟩ 4 := rfl
  constructor <;> simp only [Outline.position, hp, Std.HashMap.getElem?_insert] <;> rfl

theorem callerCopy_labels :
    callerCopy.inner.labels[(⟨0⟩ : Label)]? = some ⟨0⟩ ∧
      callerCopy.inner.labels[(⟨1⟩ : Label)]? = some ⟨0⟩ := by
  constructor <;> simp only [callerCopy, Std.HashMap.getElem?_insert] <;> rfl

theorem calleeCopy_labels :
    calleeCopy.inner.labels[(⟨0⟩ : Label)]? = some ⟨2⟩ ∧
      calleeCopy.inner.labels[(⟨1⟩ : Label)]? = some ⟨3⟩ := by
  constructor <;> simp only [calleeCopy, Std.HashMap.getElem?_insert] <;> rfl

theorem subroutines_eq : inlining.outline.subroutines = .ok (caller, [callee]) := by
  have hcaller : inlining.outline.membersFrom 0 = .ok caller.members := by cbv
  have hcallee : inlining.outline.membersFrom 2 = .ok callee.members := by cbv
  have hat : inlining.outline.subroutineAt ⟨0⟩ = .ok callee := by
    rw [Outline.subroutineAt, position_eq.1]
    change (inlining.outline.membersFrom 2 >>= _) = _
    rw [hcallee]
    rfl
  rw [Outline.subroutines, hcaller]
  change ([(⟨0⟩ : Label)].mapM inlining.outline.subroutineAt >>= _) = _
  rw [List.mapM_cons, hat]
  rfl

theorem emit_caller : inlining.emit ⟨1, [], [], [], []⟩ callerCopy =
    .ok ⟨4, [.plain .returnVoid, .label ⟨0⟩, .jump .goto ⟨0⟩, .label ⟨1⟩, .jump .goto ⟨2⟩,
      .plain .aconstNull], [], [], [calleeCopy]⟩ := by
  have hcall : inlining.emitElement callerCopy ⟨1, none, [], []⟩ (.jump .jsr ⟨0⟩, 0) =
      .ok ⟨4, none, [.label ⟨1⟩, .jump .goto ⟨2⟩, .plain .aconstNull], [calleeCopy]⟩ := by
    change (inlining.jumpLabel calleeCopy ⟨0⟩ >>= _) = _
    rw [jumpLabel_ok position_eq.1 rfl calleeCopy_labels.1]
    rfl
  have hgoto : ∀ state, inlining.emitElement callerCopy state (.jump .goto ⟨1⟩, 1) =
      .ok { state with code := .jump .goto ⟨0⟩ :: state.code } := by
    intro state
    have hj : inlining.jumpLabel callerCopy ⟨1⟩ = .ok ⟨0⟩ :=
      jumpLabel_ok position_eq.2 rfl callerCopy_labels.2
    have hr : inlining.resolve callerCopy (.jump .goto ⟨1⟩) = .ok (.jump .goto ⟨0⟩) := by
      simp [Job.resolve, Instruction.references, hj, bind, Except.bind, Instruction.mapLabels,
        pure, Except.pure]
    change (inlining.resolve callerCopy (.jump .goto ⟨1⟩) >>= _) = _
    rw [hr]
    rfl
  have hf : runningIn.body.code.zipIdx.foldlM (inlining.emitElement callerCopy)
      ⟨1, none, [], []⟩ = .ok ⟨4, some ⟨0⟩, [.plain .returnVoid, .label ⟨0⟩, .jump .goto ⟨0⟩,
        .label ⟨1⟩, .jump .goto ⟨2⟩, .plain .aconstNull], [calleeCopy]⟩ := by
    change (inlining.emitElement callerCopy ⟨1, none, [], []⟩ (.jump .jsr ⟨0⟩, 0) >>= _) = _
    rw [hcall]
    change (inlining.emitElement callerCopy _ (.jump .goto ⟨1⟩, 1) >>= _) = _
    rw [hgoto]
    change (inlining.emitElement callerCopy _ (.label ⟨0⟩, 2) >>= _) = _
    rw [emitElement_label callerCopy_labels.1]
    change (inlining.emitElement callerCopy _ (.label ⟨1⟩, 4) >>= _) = _
    rw [emitElement_label callerCopy_labels.2]
    rfl
  rw [Job.emit]
  change (runningIn.body.code.zipIdx.foldlM (inlining.emitElement callerCopy)
    ⟨1, none, [], []⟩ >>= _) = _
  rw [hf]
  rfl

theorem emit_callee (state : Inlined) : inlining.emit state calleeCopy =
    .ok { state with
      code := [.label ⟨3⟩, .var .astore 0, .label ⟨2⟩] ++ state.code } := by
  have hf : runningIn.body.code.zipIdx.foldlM (inlining.emitElement calleeCopy)
      ⟨state.supply, none, [], []⟩ = .ok ⟨state.supply, some ⟨3⟩,
        [.label ⟨3⟩, .var .astore 0, .label ⟨2⟩], []⟩ := by
    change (inlining.emitElement calleeCopy _ (.label ⟨0⟩, 2) >>= _) = _
    rw [emitElement_label calleeCopy_labels.1]
    change (inlining.emitElement calleeCopy _ (.label ⟨1⟩, 4) >>= _) = _
    rw [emitElement_label calleeCopy_labels.2]
    rfl
  rw [Job.emit]
  change (runningIn.body.code.zipIdx.foldlM (inlining.emitElement calleeCopy)
    ⟨state.supply, none, [], []⟩ >>= _) = _
  rw [hf]
  rfl

theorem inlineSubroutines_eq : runningIn.inlineSubroutines = .ok { runningIn with
    body := ⟨[.plain .aconstNull, .jump .goto ⟨2⟩, .label ⟨1⟩, .jump .goto ⟨0⟩, .label ⟨0⟩,
      .plain .returnVoid, .label ⟨2⟩, .var .astore 0, .label ⟨3⟩], 4⟩ } := by
  have hplaced : runningIn.checkPlacedOnce runningIn.displayName = .ok () := by cbv
  have hall : inlining.emitAll 2 ⟨1, [], [], [], [callerCopy]⟩ = .ok ⟨4, [.label ⟨3⟩,
      .var .astore 0, .label ⟨2⟩, .plain .returnVoid, .label ⟨0⟩, .jump .goto ⟨0⟩, .label ⟨1⟩,
      .jump .goto ⟨2⟩, .plain .aconstNull], [], [], []⟩ := by
    change ((inlining.emit ⟨1, [], [], [], []⟩ callerCopy >>= _) >>= _) = _
    rw [emit_caller]
    change ((inlining.emit _ calleeCopy >>= _) >>= _) = _
    rw [emit_callee]
    rfl
  rw [Method.inlineSubroutines, hplaced]
  change (inlining.outline.subroutines >>= _) = _
  rw [subroutines_eq]
  change (inlining.emitAll 2 ⟨1, [], [], [], [callerCopy]⟩ >>= _) = _
  rw [hall]
  rfl

end RunningIn

theorem runningIn_copied : ∃ body called copies,
    (Outline.ofMethod runningIn).subroutines = .ok (body, called) ∧
    Copied ⟨.ofMethod runningIn, called⟩ body copies
      [.plain .aconstNull, .jump .goto ⟨2⟩, .label ⟨1⟩, .jump .goto ⟨0⟩, .label ⟨0⟩,
        .plain .returnVoid, .label ⟨2⟩, .var .astore 0, .label ⟨3⟩] := by
  obtain ⟨body, called, copies, hs, hd, -⟩ :=
    inlineSubroutines_continues (by decide) RunningIn.inlineSubroutines_eq
  exact ⟨body, called, copies, hs, hd⟩

/-- The copy of the subroutine is the end of the code: control runs off it, where the original
went on to return. -/
theorem runningIn_runsOff : ∃ out, runningIn.inlineSubroutines = .ok out ∧
    runningIn.body.code[3]? = some (.var .astore 0) ∧
    nextReal runningIn.body.code 4 = some 5 ∧
    runningIn.body.code[5]? = some (.plain .returnVoid) ∧
    out.body.code[7]? = some (.var .astore 0) ∧ nextReal out.body.code 8 = none :=
  ⟨_, RunningIn.inlineSubroutines_eq, by decide, by decide, by decide, by decide, by decide⟩

end ClassTree.Subroutine
