import ClassTree.Proofs.Subroutine.Assembly

namespace ClassTree.Subroutine

def Inlined.idle (state : Inlined) : Inlined :=
  { state with calls := [] }

/-- Emits instances, the one that has waited longest first, until none waits or one cannot be
emitted. Those that an instance calls for wait behind all others. The run has what there was, and
what waited, before each of them. -/
inductive Job.Serves (job : Job) :
    Inlined → List Nesting → List (Inlined × List Nesting) → Except Inconsistency Inlined → Prop
  | idle {state : Inlined} : Job.Serves job state [] [] (.ok state)
  | fails {state : Inlined} {nesting : Nesting} {queue : List Nesting} {cause : Inconsistency}
      (failed : job.emit state nesting = .error cause) :
      Job.Serves job state (nesting :: queue) [(state, nesting :: queue)] (.error cause)
  | emits {state next : Inlined} {nesting : Nesting} {queue : List Nesting}
      {run : List (Inlined × List Nesting)} {outcome : Except Inconsistency Inlined}
      (emitted : job.emit state nesting = .ok next)
      (rest : Job.Serves job next.idle (queue ++ next.calls.reverse) run outcome) :
      Job.Serves job state (nesting :: queue) ((state, nesting :: queue) :: run) outcome

/-- Emitting the instance gets to a call of a subroutine that it is within. -/
def Job.Repeats (job : Job) (state : Inlined) (nesting : Nesting) : Prop :=
  ∃ (i : Nat) (target : Label) (emission : Emission),
    job.outline.method.body.code[i]? = some (.jump .jsr target) ∧ nesting.owns i = true ∧
    (∃ around ∈ nesting.inner :: nesting.outer, around.subroutine.entry = some target) ∧
    (job.outline.method.body.code.zipIdx.take i).foldlM (job.emitElement nesting)
      ⟨state.supply, none, [], []⟩ = .ok emission

variable {job : Job} {body : Subroutine} {state next : Inlined} {nesting : Nesting}
  {queue todo : List Nesting} {run : List (Inlined × List Nesting)}
  {outcome : Except Inconsistency Inlined} {cause : Inconsistency}

section Rounds

/-- What an instance emits does not depend on the instances that wait. -/
theorem emit_idle (job : Job) (state : Inlined) (nesting : Nesting) :
    job.emit state nesting = (job.emit state.idle nesting).map fun next =>
      { next with calls := next.calls ++ state.calls } := by
  simp only [Job.emit, Inlined.idle]
  cases job.outline.method.body.code.zipIdx.foldlM (job.emitElement nesting)
      ⟨state.supply, none, [], []⟩ with
  | error cause => rfl
  | ok emission =>
    cases job.outline.method.handlers.mapM (job.emitHandler nesting) with
    | error cause => rfl
    | ok handlers =>
      cases job.outline.method.variableList.mapM (job.emitVariable nesting) with
      | error cause => rfl
      | ok entries => simp [bind, Except.bind, pure, Except.pure, Except.map]

/-- Emitting a list of instances, and then what they call for, is emitting them one by one. -/
theorem serves_foldlM
    (failed : ∀ cause, todo.foldlM job.emit state = .error cause → outcome = .error cause)
    (rest : ∀ next, todo.foldlM job.emit state = .ok next →
      ∃ run, job.Serves next.idle next.calls.reverse run outcome) :
    ∃ run, job.Serves state.idle (todo ++ state.calls.reverse) run outcome := by
  induction todo generalizing state with
  | nil => exact rest state rfl
  | cons nesting todo ih =>
    rw [List.foldlM_cons] at failed rest
    have hidle := emit_idle job state nesting
    cases he : job.emit state.idle nesting with
    | error cause =>
      rw [he] at hidle
      rw [hidle] at failed
      rw [failed cause rfl]
      exact ⟨_, .fails he⟩
    | ok next =>
      rw [he] at hidle
      rw [hidle] at failed rest
      obtain ⟨run, hrun⟩ := ih failed rest
      have hrun : job.Serves next.idle (todo ++ state.calls.reverse ++ next.calls.reverse) run
          outcome := by
        simpa [Inlined.idle] using hrun
      exact ⟨_, .emits he hrun⟩

/-- If some rounds leave no instance, they emit what is emitted one by one. -/
theorem serves_emitAll {rounds : Nat}
    (done : ∀ final, job.emitAll rounds state = .ok final → final.calls = []) :
    ∃ run, job.Serves state.idle state.calls.reverse run (job.emitAll rounds state) := by
  induction rounds generalizing state with
  | zero =>
    obtain ⟨supply, code, handlers, localVariables, calls⟩ := state
    obtain rfl : calls = [] := done _ rfl
    exact ⟨[], .idle⟩
  | succ rounds ih =>
    rw [Job.emitAll] at done ⊢
    have hserves := @serves_foldlM job state.idle state.calls.reverse
      (state.calls.reverse.foldlM job.emit state.idle >>= job.emitAll rounds)
    rw [show state.idle.calls.reverse = [] from rfl, List.append_nil] at hserves
    refine hserves ?_ ?_
    · intro cause hf
      rw [hf]
      rfl
    · intro next hf
      rw [hf]
      refine ih fun final hfinal => done final ?_
      exact bind_eq_ok.mpr ⟨next, hf, hfinal⟩

end Rounds

section Faults

def SparesRecursion {α : Type} (x : Except Inconsistency α) : Prop :=
  FailsOnly (fun cause => ∀ name, cause ≠ .recursiveSubroutine name) x

theorem SparesRecursion.ne_error {α : Type} {x : Except Inconsistency α} (h : SparesRecursion x)
    (name : String) : x ≠ .error (.recursiveSubroutine name) :=
  fun he => h _ he name rfl

theorem sparesRecursion_rangeLabel (job : Job) (nesting : Nesting) (label : Label) :
    SparesRecursion (job.rangeLabel nesting label) := by
  unfold Job.rangeLabel
  split
  · exact failsOnly_ok _
  · exact failsOnly_error fun _ => nofun

theorem sparesRecursion_position (outline : Outline) (label : Label) :
    SparesRecursion (outline.position label) := by
  unfold Outline.position
  split
  · exact failsOnly_ok _
  · exact failsOnly_error fun _ => nofun

theorem sparesRecursion_jumpLabel (job : Job) (nesting : Nesting) (label : Label) :
    SparesRecursion (job.jumpLabel nesting label) := by
  refine (sparesRecursion_position _ _).bind fun index => ?_
  split
  · exact failsOnly_ok _
  · exact failsOnly_error fun _ => nofun

theorem sparesRecursion_resolve (job : Job) (nesting : Nesting) (insn : Instruction Label) :
    SparesRecursion (job.resolve nesting insn) := by
  refine (failsOnly_mapM (fun label => ?_) _).bind fun _ => failsOnly_ok _
  exact (sparesRecursion_jumpLabel job nesting label).bind fun _ => failsOnly_ok _

theorem sparesRecursion_emitHandler (job : Job) (nesting : Nesting) (handler : TryCatch) :
    SparesRecursion (job.emitHandler nesting handler) := by
  refine (sparesRecursion_rangeLabel _ _ _).bind fun start => ?_
  refine (sparesRecursion_rangeLabel _ _ _).bind fun stop => ?_
  split
  · exact failsOnly_ok _
  · exact (sparesRecursion_jumpLabel _ _ _).bind fun _ => failsOnly_ok _

theorem sparesRecursion_emitVariable (job : Job) (nesting : Nesting) (entry : LocalVariable) :
    SparesRecursion (job.emitVariable nesting entry) := by
  refine (sparesRecursion_rangeLabel _ _ _).bind fun start => ?_
  refine (sparesRecursion_rangeLabel _ _ _).bind fun stop => ?_
  split
  · exact failsOnly_ok _
  · exact failsOnly_ok _

def Job.Knows (job : Job) : Prop :=
  ∀ target, .jump .jsr target ∈ job.outline.method.body.code →
    ∃ subroutine ∈ job.subroutines, subroutine.entry = some target

theorem isWithin_iff {entry : Option Label} : nesting.isWithin entry = true ↔
    ∃ around ∈ nesting.inner :: nesting.outer, around.subroutine.entry = entry := by
  simp [Nesting.isWithin]

/-- A call gets an instance unless it is within one of the same subroutine. -/
theorem emitCall_recursive {target : Label} {emission : Emission}
    (hknown : ∃ subroutine ∈ job.subroutines, subroutine.entry = some target) :
    job.emitCall nesting target emission =
        .error (.recursiveSubroutine job.outline.method.displayName) ↔
      nesting.isWithin (some target) = true := by
  have hfind : (job.subroutines.find? (·.entry == some target)).isSome := by
    obtain ⟨subroutine, hs, he⟩ := hknown
    exact List.find?_isSome.mpr ⟨subroutine, hs, by simpa using he⟩
  obtain ⟨subroutine, hs⟩ := Option.isSome_iff_exists.mp hfind
  have hentry : subroutine.entry = some target := by simpa using List.find?_some hs
  unfold Job.emitCall
  rw [hs]
  by_cases hw : nesting.isWithin (some target) = true
  · refine iff_of_true ?_ hw
    simp only [Job.instantiate, hentry, Option.any_some, hw, if_true]
    rfl
  · refine iff_of_false ?_ hw
    simp only [Job.instantiate, hentry, Option.any_some, if_neg hw]
    exact SparesRecursion.ne_error
      ((sparesRecursion_jumpLabel _ _ _).bind fun _ => failsOnly_ok _) _

/-- Of all elements, only a call can fail so. -/
theorem emitElement_recursive (hknown : job.Knows) {insn : Instruction Label} {i : Nat}
    (hat : job.outline.method.body.code[i]? = some insn) {emission : Emission} :
    job.emitElement nesting emission (insn, i) =
        .error (.recursiveSubroutine job.outline.method.displayName) ↔
      ∃ target, insn = .jump .jsr target ∧ nesting.owns i = true ∧
        nesting.isWithin (some target) = true := by
  unfold Job.emitElement
  split
  · rename_i label hl
    obtain rfl := Instruction.eq_of_placed? hl
    refine iff_of_false ?_ nofun
    refine SparesRecursion.ne_error ((sparesRecursion_rangeLabel _ _ _).bind fun clone => ?_) _
    split
    · exact failsOnly_ok _
    · exact failsOnly_ok _
  · split
    · rename_i own
      unfold Job.emitOwned
      dsimp only
      split
      · split
        · exact iff_of_false nofun nofun
        · exact iff_of_false nofun nofun
      · rename_i target _
        rw [emitCall_recursive (hknown target (List.mem_of_getElem? hat))]
        exact ⟨fun hw => ⟨target, rfl, own, hw⟩, fun ⟨_, he, _, hw⟩ => by cases he; exact hw⟩
      · exact iff_of_false nofun nofun
      · rename_i hcall _
        refine iff_of_false ?_ fun ⟨target, he, _⟩ => hcall target he
        exact SparesRecursion.ne_error
          ((sparesRecursion_resolve _ _ _).bind fun _ => failsOnly_ok _) _
    · rename_i own
      exact iff_of_false nofun fun ⟨_, _, ho, _⟩ => own ho

/-- An instance is refused for recursion just if emitting it gets to a call that repeats one. -/
theorem emit_recursive (hknown : job.Knows) :
    job.emit state nesting = .error (.recursiveSubroutine job.outline.method.displayName) ↔
      job.Repeats state nesting := by
  have hfold : job.emit state nesting =
        .error (.recursiveSubroutine job.outline.method.displayName) ↔
      job.outline.method.body.code.zipIdx.foldlM (job.emitElement nesting)
        ⟨state.supply, none, [], []⟩ =
          .error (.recursiveSubroutine job.outline.method.displayName) := by
    rw [Job.emit, bind_eq_error]
    refine or_iff_left ?_
    rintro ⟨emission, -, h⟩
    refine SparesRecursion.ne_error
      ((failsOnly_mapM (sparesRecursion_emitHandler job nesting) _).bind fun _ => ?_) _ h
    refine (failsOnly_mapM (sparesRecursion_emitVariable job nesting) _).bind
      fun _ => failsOnly_ok _
  rw [hfold, foldlM_eq_error]
  constructor
  · rintro ⟨i, ⟨insn, k⟩, emission, hi, htake, he⟩
    obtain ⟨hat, rfl⟩ : job.outline.method.body.code[i]? = some insn ∧ i = k := by
      simpa using hi
    obtain ⟨target, rfl, own, hw⟩ := (emitElement_recursive hknown hat).mp he
    exact ⟨i, target, emission, hat, own, isWithin_iff.mp hw, htake⟩
  · rintro ⟨i, target, emission, hat, own, hw, htake⟩
    refine ⟨i, (.jump .jsr target, i), emission, by simpa using hat, htake, ?_⟩
    exact (emitElement_recursive hknown hat).mpr ⟨target, rfl, own, isWithin_iff.mpr hw⟩

end Faults

section Runs

/-- A run ends with what goes wrong for one of its instances. -/
theorem Job.Serves.eq_error_iff (h : job.Serves state queue run outcome) :
    outcome = .error cause ↔ ∃ state nesting queue, (state, nesting :: queue) ∈ run ∧
      job.emit state nesting = .error cause := by
  induction h with
  | idle => exact iff_of_false nofun fun ⟨_, _, _, hm, _⟩ => nomatch hm
  | @fails state nesting queue cause' failed =>
    constructor
    · rintro ⟨⟩
      exact ⟨state, nesting, queue, List.mem_singleton_self _, failed⟩
    · rintro ⟨_, _, _, hm, he⟩
      cases List.mem_singleton.mp hm
      rw [failed] at he
      exact congrArg _ (Except.error.inj he)
  | @emits state next nesting queue run outcome emitted _ ih =>
    rw [ih]
    constructor
    · rintro ⟨state', nesting', queue', hm, he⟩
      exact ⟨state', nesting', queue', List.mem_cons_of_mem _ hm, he⟩
    · rintro ⟨state', nesting', queue', hm, he⟩
      rcases List.mem_cons.mp hm with heq | hm
      · cases heq
        rw [emitted] at he
        cases he
      · exact ⟨state', nesting', queue', hm, he⟩

/-- What an instance calls for has labels of its own, and is within it. -/
theorem pending_emit (hn : job.outline.method.body.placed.Nodup)
    (hp : Pending job body 0 state.supply nesting) (hidle : state.calls = [])
    (he : job.emit state nesting = .ok next) : state.supply ≤ next.supply ∧
      ∀ called ∈ next.calls, Pending job body 0 next.supply called := by
  obtain ⟨emission, hf, he⟩ := bind_eq_ok.mp he
  obtain ⟨handlers, -, he⟩ := bind_eq_ok.mp he
  obtain ⟨entries, -, he⟩ := bind_eq_ok.mp he
  obtain rfl := pure_eq_ok.mp he
  obtain ⟨pieces, hem⟩ := emitting_foldlM hn hp (List.prefix_refl _) hf
  refine ⟨hem.grows, fun called hm => ?_⟩
  rw [hidle, List.append_nil] at hm
  exact (hem.pending called hm).1.mono (Nat.zero_le _) (Nat.le_refl _)

/-- Instances within each other are of different subroutines, at all times. -/
theorem Job.Serves.distinct (h : job.Serves state queue run outcome)
    (hn : job.outline.method.body.placed.Nodup) (hidle : state.calls = [])
    (hp : ∀ nesting ∈ queue, Pending job body 0 state.supply nesting) :
    ∀ state queue, (state, queue) ∈ run → ∀ nesting ∈ queue,
      ((nesting.inner :: nesting.outer).map (·.subroutine.entry)).Nodup := by
  induction h with
  | idle => exact nofun
  | fails =>
    intro state queue hm nesting hq
    cases List.mem_singleton.mp hm
    exact (hp nesting hq).distinct
  | @emits state next nesting queue run outcome emitted _ ih =>
    obtain ⟨hsupply, hcalls⟩ := pending_emit hn (hp nesting List.mem_cons_self) hidle emitted
    intro state' queue' hm waiting hq
    rcases List.mem_cons.mp hm with heq | hm
    · cases heq
      exact (hp waiting hq).distinct
    · refine ih rfl (fun called hc => ?_) state' queue' hm waiting hq
      rcases List.mem_append.mp hc with hc | hc
      · exact (hp called (List.mem_cons_of_mem _ hc)).mono (Nat.le_refl _) hsupply
      · exact hcalls called (List.mem_reverse.mp hc)

end Runs

theorem knows_beginInlining {method : Method} {start : Nesting} {supply : Nat}
    (h : beginInlining method = .ok (job, start, supply)) : job.Knows := by
  obtain ⟨body, hs, ho, -⟩ := beginInlining_ok h
  obtain ⟨members, -, hs⟩ := bind_eq_ok.mp hs
  obtain ⟨called, hcalled, hs⟩ := bind_eq_ok.mp hs
  obtain rfl : called = job.subroutines := (Prod.mk.inj (pure_eq_ok.mp hs)).2
  intro target hm
  rw [ho] at hm
  have hentry : target ∈ entries method.body.code :=
    List.mem_eraseDups.mpr (List.mem_filterMap.mpr ⟨_, hm, rfl⟩)
  obtain ⟨subroutine, hs, hat⟩ := exists_mem_of_mapM hcalled hentry
  obtain ⟨index, -, hat⟩ := bind_eq_ok.mp hat
  obtain ⟨found, -, hat⟩ := bind_eq_ok.mp hat
  obtain rfl := pure_eq_ok.mp hat
  exact ⟨_, hs, rfl⟩

end ClassTree.Subroutine
