import ClassTree.Code.Decoding
import ClassTree.Proofs.Pool.Codec
import ClassTree.Proofs.Pool.Lookup

namespace ClassTree.Pool

open Build

/-- What a pool can be asked for. Numbers, strings and method types are literals. -/
inductive Request where
  | text (value : String)
  | classRef (name : String)
  | nameAndType (name descriptor : String)
  | field (member : Member)
  | method (member : Member) (onInterface : Bool)
  | handle (value : Handle)
  | literal (value : Literal)
  /-- An entry of the bootstrap table, which has indices of its own. -/
  | bootstrapMethod (linker : Handle) (arguments : List Literal)
  | invokeDynamic (name descriptor : String) (linker : Handle) (arguments : List Literal)

namespace Request

def ask : Request → Build Index
  | text value => Build.text value
  | classRef name => Build.classRef name
  | nameAndType name descriptor => Build.nameAndType name descriptor
  | field member => Build.field member
  | method member onInterface => Build.method member onInterface
  | handle value => Build.handle value
  | literal value => Build.literal value
  | bootstrapMethod linker arguments => Build.bootstrapMethod linker arguments
  | invokeDynamic name descriptor linker arguments =>
    Build.invokeDynamic name descriptor linker arguments

/-- The handles that are asked for say nothing that a pool does not keep. -/
def Canonical : Request → Prop
  | handle value => value.Canonical
  | literal value => value.Canonical
  | bootstrapMethod linker arguments | invokeDynamic _ _ linker arguments =>
    linker.Canonical ∧ ∀ value ∈ arguments, value.Canonical
  | _ => True

/-- Looking up the index gives what was asked for. -/
def FoundAt (table : Table) (index : Index) : Request → Prop
  | text value => table.text index = .ok value
  | classRef name => table.className index = .ok name
  | nameAndType name descriptor => table.nameAndType index = .ok (name, descriptor)
  | field member => table.member index = .ok (member, false)
  | method member onInterface => table.member index = .ok (member, onInterface)
  | handle value => table.handle index = .ok value
  | literal value => table.literal index = .ok value
  | bootstrapMethod linker arguments => table.bootstrapMethod index = .ok (linker, arguments)
  | invokeDynamic name descriptor linker arguments =>
    Code.callSite table index = .ok (.invokeDynamic name descriptor linker arguments)

theorem lawful_ask (request : Request) : Lawful request.ask := by
  cases request with
  | text value => exact lawful_text value
  | classRef name => exact lawful_classRef name
  | nameAndType name descriptor => exact lawful_nameAndType name descriptor
  | field member => exact lawful_field member
  | method member onInterface => exact lawful_method member onInterface
  | handle value => exact lawful_handle value
  | literal value => exact lawful_literal value
  | bootstrapMethod linker arguments => exact lawful_bootstrapMethod linker arguments
  | invokeDynamic name descriptor linker arguments =>
    exact lawful_invokeDynamic name descriptor linker arguments

/-- What was asked for is found in any pool that has grown since. -/
theorem foundAt {request : Request} {b b' b'' : Builder} {index : Index} (hc : request.Canonical)
    (hy : Yields request.ask b index b') (hw : b'.Within b'') (hs : b''.Sound)
    (hsize : b''.bootstrap.size ≤ 0x10000) : request.FoundAt b''.table index := by
  cases request with
  | text value => exact text_found hy hw hs
  | classRef name => exact className_found hy hw hs
  | nameAndType name descriptor => exact nameAndType_found hy hw hs
  | field member => exact field_found hy hw hs
  | method member onInterface => exact method_found hy hw hs
  | handle value => exact (handle_found hc hy hw hs).2
  | literal value => exact literal_found hc hy hw hs
  | bootstrapMethod linker arguments => exact bootstrapMethod_found hc.1 hc.2 hy hw hs hsize
  | invokeDynamic name descriptor linker arguments =>
    obtain ⟨place, pair, hget, hpair, hplace⟩ := invokeDynamic_found hy hw hs
    have hlinker := bootstrapMethod_found hc.1 hc.2 hplace (.refl _) hs hsize
    simp [FoundAt, Code.callSite, hget, hpair, hlinker, bind, Except.bind, pure, Except.pure]

end Request

section Failures

variable {α β γ : Type}

def FailsFull (x : Build α) : Prop :=
  ∀ b : Builder, (∃ a, (x.exec b).1 = .ok a) ∨
    (x.exec b).1 = .error (.inconsistent .constantPoolOverflow)

theorem failsFull_pure (a : α) : FailsFull (pure a) :=
  fun _ => .inl ⟨a, rfl⟩

theorem FailsFull.bind {x : Build α} {f : α → Build β} (hx : FailsFull x)
    (hf : ∀ a, FailsFull (f a)) : FailsFull (x >>= f) := by
  intro b
  rw [exec_bind]
  have h := hx b
  rcases hb : x.exec b with ⟨fault | a, b'⟩
  · rw [hb] at h
    obtain ⟨a, ha⟩ | hfull := h
    · cases ha
    · exact .inr (congrArg Except.error (Except.error.inj hfull))
  · exact hf a b'

theorem failsFull_mapM {g : γ → Build α} (hg : ∀ c, FailsFull (g c)) (l : List γ) :
    FailsFull (l.mapM g) := by
  induction l with
  | nil => exact failsFull_pure []
  | cons c l ih =>
    rw [List.mapM_cons]
    exact (hg c).bind fun a => ih.bind fun as => failsFull_pure (a :: as)

theorem failsFull_constant (constant : Constant) : FailsFull (Build.constant constant) := by
  intro b
  rcases exec_constant constant b with ⟨index, -, he⟩ | ⟨-, -, he⟩ | ⟨-, he⟩
  · exact .inl ⟨index, by rw [he]⟩
  · exact .inl ⟨_, by rw [he]⟩
  · exact .inr (by rw [he])

theorem failsFull_entry (method : BootstrapMethod) : FailsFull (entry method) := by
  intro b
  rcases exec_entry method b with ⟨index, -, he⟩ | ⟨-, he⟩
  · exact .inl ⟨index, by rw [he]⟩
  · exact .inl ⟨_, by rw [he]⟩

theorem failsFull_text (value : String) : FailsFull (text value) :=
  failsFull_constant _

theorem failsFull_classRef (name : String) : FailsFull (classRef name) :=
  (failsFull_text name).bind fun _ => failsFull_constant _

theorem failsFull_nameAndType (name descriptor : String) :
    FailsFull (nameAndType name descriptor) :=
  (failsFull_text name).bind fun _ => (failsFull_text descriptor).bind fun _ =>
    failsFull_constant _

theorem failsFull_field (member : Member) : FailsFull (field member) :=
  (failsFull_classRef _).bind fun _ => (failsFull_nameAndType _ _).bind fun _ =>
    failsFull_constant _

theorem failsFull_method (member : Member) (onInterface : Bool) :
    FailsFull (method member onInterface) :=
  (failsFull_classRef _).bind fun _ => (failsFull_nameAndType _ _).bind fun _ =>
    failsFull_constant _

theorem failsFull_handle (value : Handle) : FailsFull (handle value) := by
  unfold handle
  split
  · exact (failsFull_field _).bind fun _ => failsFull_constant _
  · exact (failsFull_method _ _).bind fun _ => failsFull_constant _

theorem failsFull_literal (value : Literal) : FailsFull (literal value) := by
  cases value with
  | int | float | long | double => exact failsFull_constant _
  | string value => exact (failsFull_text value).bind fun _ => failsFull_constant _
  | classRef name => exact failsFull_classRef name
  | methodType descriptor => exact (failsFull_text descriptor).bind fun _ => failsFull_constant _
  | handle value => exact failsFull_handle value

theorem failsFull_bootstrapMethod (method : Handle) (arguments : List Literal) :
    FailsFull (bootstrapMethod method arguments) := by
  rw [bootstrapMethod_eq]
  exact (failsFull_handle method).bind fun _ =>
    (failsFull_mapM failsFull_literal arguments).bind fun _ => failsFull_entry _

theorem Request.failsFull_ask (request : Request) : FailsFull request.ask := by
  cases request with
  | text value => exact failsFull_text value
  | classRef name => exact failsFull_classRef name
  | nameAndType name descriptor => exact failsFull_nameAndType name descriptor
  | field member => exact failsFull_field member
  | method member onInterface => exact failsFull_method member onInterface
  | handle value => exact failsFull_handle value
  | literal value => exact failsFull_literal value
  | bootstrapMethod linker arguments => exact failsFull_bootstrapMethod linker arguments
  | invokeDynamic name descriptor linker arguments =>
    exact (failsFull_bootstrapMethod linker arguments).bind fun _ =>
      (failsFull_nameAndType name descriptor).bind fun _ => failsFull_constant _

end Failures

namespace Builder

/-- Pools that nothing has been asked of: empty ones, and those with the constants of a class
file. -/
inductive Initial : Builder → Prop
  | empty : Initial .empty
  | seeded {table : Table} {cursor cursor' : Cursor}
      (read : Constants.read.run cursor = .ok (table.constants, cursor')) :
      Initial (.ofTable table)

theorem Initial.reachable {b : Builder} (h : b.Initial) : b.Reachable := by
  cases h with
  | empty => exact .empty
  | seeded read => exact .seeded read

/-- The pool after some requests, with what those that failed have left in it. -/
def after (b : Builder) (requests : List Request) : Builder :=
  requests.foldl (fun b request => (request.ask.exec b).2) b

theorem after_cons (b : Builder) (request : Request) (requests : List Request) :
    b.after (request :: requests) = (request.ask.exec b).2.after requests := rfl

theorem after_append (b : Builder) (requests requests' : List Request) :
    b.after (requests ++ requests') = (b.after requests).after requests' :=
  List.foldl_append

theorem within_after (b : Builder) (requests : List Request) : b.Within (b.after requests) := by
  induction requests generalizing b with
  | nil => exact .refl b
  | cons request requests ih => exact (request.lawful_ask.within b).trans (ih _)

theorem Reachable.after {b : Builder} (h : b.Reachable) (requests : List Request) :
    (b.after requests).Reachable := by
  induction requests generalizing b with
  | nil => exact h
  | cons request requests ih => exact ih (request.lawful_ask.reachable h)

/-- Whatever has been asked of a pool, what it started with is where it was, requests only fail for
want of room, and what succeeded is repeated at no cost, and is found as it was asked for. -/
theorem found_after_requests {start : Builder} (hstart : start.Initial) (requests : List Request)
    (hsize : (start.after requests).bootstrap.size ≤ 0xFFFF) :
    start.Within (start.after requests) ∧
    ∀ before request later, requests = before ++ request :: later →
      ((∃ index, (request.ask.exec (start.after before)).1 = .ok index) ∨
        (request.ask.exec (start.after before)).1 = .error (.inconsistent .constantPoolOverflow)) ∧
      ∀ index, (request.ask.exec (start.after before)).1 = .ok index →
        (request.Canonical → request.FoundAt (start.after requests).table index) ∧
        request.ask.exec (start.after requests) = (.ok index, start.after requests) := by
  refine ⟨within_after start requests, ?_⟩
  rintro before request later rfl
  refine ⟨request.failsFull_ask _, fun index hindex => ?_⟩
  have hy : Yields request.ask (start.after before) index
      (request.ask.exec (start.after before)).2 := Prod.ext hindex rfl
  have hw : (request.ask.exec (start.after before)).2.Within
      (start.after (before ++ request :: later)) := by
    rw [after_append, after_cons]
    exact within_after _ later
  have hsound := (hstart.reachable.after (before ++ request :: later)).sound
  exact ⟨fun hcanonical => Request.foundAt hcanonical hy hw hsound (Nat.le_succ_of_le hsize),
    request.lawful_ask.again hy hw⟩

end Builder

namespace Doubled

/-- Pool of a class file in which a text is there twice, before a number of two places. -/
def table : Table :=
  ⟨[.utf8 "A", .utf8 "A", .long 5].foldl Constants.add .empty, #[]⟩

theorem initial : (Builder.ofTable table).Initial := by
  have hshort : (Text.ModifiedUtf8.encode "A").length < 0x10000 := by decide
  have hfits : ∀ constant ∈ table.constants.toList, constant.Fits := by
    intro constant hm
    obtain rfl | rfl | rfl : constant = .utf8 "A" ∨ constant = .utf8 "A" ∨ constant = .long 5 := by
      simpa [table, Constants.add, Slots.toList, Slots.push, Constants.empty, Slots.empty] using hm
    · exact hshort
    · exact hshort
    · trivial
  have hbuilt : table.constants.Built := rfl
  exact .seeded (hbuilt.reads hfits (by decide) 0 [] 0)

/-- A method that links call sites, with a number and a string that are there already. -/
def linking : Request :=
  .bootstrapMethod ⟨.invokeStatic, ⟨"A", "link", "()V"⟩, true⟩ [.long 5, .string "A"]

theorem takes_linking : Takes linking.ask 20 1 := by
  have hhandle : Takes (handle ⟨.invokeStatic, ⟨"A", "link", "()V"⟩, true⟩) 14 0 :=
    (takes_method _ _).bind fun _ => takes_constant _
  have harguments : Takes ([.long 5, .string "A"].mapM literal) 6 0 := by
    rw [List.mapM_cons, List.mapM_cons, List.mapM_nil]
    exact (takes_constant _).bind fun _ => (((takes_text _).bind fun _ => takes_constant _).bind
      fun _ => (takes_pure _).bind fun _ => takes_pure _).bind fun _ => takes_pure _
  change Takes (bootstrapMethod _ _) _ _
  rw [bootstrapMethod_eq]
  exact hhandle.bind fun _ => harguments.bind fun _ => takes_entry _

/-- The entry is found, and found again, after another request, and both texts are in place. -/
theorem linking_found : ∃ index : Index, ∃ pool : Builder,
    pool = (Builder.ofTable table).after [linking, .text "B"] ∧
    linking.FoundAt pool.table index ∧ linking.ask.exec pool = (.ok index, pool) ∧
    pool.constants.get? 1 = some (.utf8 "A") ∧ pool.constants.get? 2 = some (.utf8 "A") := by
  obtain ⟨index, b, hlinking, hroom, hentries⟩ := takes_linking (.ofTable table) 2 (by decide)
  obtain ⟨place, b', htext, -, hsame⟩ := takes_text "B" b 0 (by omega)
  have hafter : (Builder.ofTable table).after [linking, .text "B"] = b' := by
    have hfirst : (linking.ask.exec (.ofTable table)).2 = b := congrArg Prod.snd hlinking
    have hsecond : ((Request.text "B").ask.exec b).2 = b' := congrArg Prod.snd htext
    rw [Builder.after_cons, hfirst, Builder.after_cons, hsecond]
    rfl
  have hempty : (Builder.ofTable table).bootstrap.size = 0 := rfl
  obtain ⟨hwithin, hrequests⟩ := Builder.found_after_requests initial [linking, .text "B"] (by
    rw [hafter]
    omega)
  obtain ⟨-, hfound⟩ := hrequests [] linking [.text "B"] rfl
  obtain ⟨hat, hagain⟩ := hfound index (congrArg Prod.fst hlinking)
  have hfirst : table.constants.get? 1 = some (.utf8 "A") := by decide +kernel
  have hsecond : table.constants.get? 2 = some (.utf8 "A") := by decide +kernel
  exact ⟨index, _, rfl, hat ⟨nofun, by simp [Literal.Canonical]⟩, hagain,
    hwithin.constants hfirst, hwithin.constants hsecond⟩

end Doubled
end ClassTree.Pool
