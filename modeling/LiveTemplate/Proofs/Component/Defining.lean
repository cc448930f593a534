import LiveTemplate.Proofs.Eval.Yields
import LiveTemplate.Proofs.Result
import LiveTemplate.TemplateUnit

/-!
Definitions that fail. A component is stored once its template compiles, but the issues of its
declarations are recorded before that: a definition that fails in its template leaves them behind,
while every other failure leaves the unit as it was. What stays behind reaches nothing but the
diagnostics of the finished unit, since no step reads the diagnostics.
-/

namespace LiveTemplate

set_option autoImplicit false

/-- A diagnostic tells an issue of a component, with the message that the issue comes to. -/
def Issue.ToldBy (i : Issue) (component : String) (source : Source) (d : Diagnostic) : Prop :=
  ∃ message start, (i.message.run.run start).1 = .ok message ∧
    d = i.code.report .verify source message none (i.data component)

namespace TemplateUnit

variable {α β : Type}

/-! ### Steps that only add to the diagnostics -/

/-- The unit with other diagnostics. -/
def withDiagnostics (u : TemplateUnit) (ds : List Diagnostic) : TemplateUnit :=
  { u with diagnostics := ds }

/-- Whatever the diagnostics are, a step answers the same and does the same to the rest of the unit,
which it leaves open or finished as it was; to the diagnostics it adds the same. -/
def Adds (x : StateT TemplateUnit Traced α) : Prop :=
  ∀ (u : TemplateUnit) (journal : Journal),
    ∃ (a : α) (after : TemplateUnit) (more : List Diagnostic) (last : Journal),
      after.finished = u.finished ∧ ∀ ds, (x.run (u.withDiagnostics ds)).run journal =
        ((a, after.withDiagnostics (ds ++ more)), last)

namespace Adds

/-- A step that does not look at the unit. -/
theorem blind (x : Traced α) : Adds (liftM x) := fun u journal =>
  ⟨_, u, [], _, rfl, fun ds => by rw [List.append_nil]; rfl⟩

theorem pure (a : α) : Adds (Pure.pure a) := blind (Pure.pure a)

theorem bind {x : StateT TemplateUnit Traced α} {f : α → StateT TemplateUnit Traced β}
    (hx : Adds x) (hf : ∀ a, Adds (f a)) : Adds (x >>= f) := by
  intro u journal
  obtain ⟨a, between, more, next, hopen, hrun⟩ := hx u journal
  obtain ⟨b, after, rest, last, hstill, hrest⟩ := hf a between next
  refine ⟨b, after, more ++ rest, last, hstill.trans hopen, fun ds => ?_⟩
  have hsplit : ((x >>= f).run (u.withDiagnostics ds)).run journal =
      ((f ((x.run (u.withDiagnostics ds)).run journal).1.1).run
        ((x.run (u.withDiagnostics ds)).run journal).1.2).run
          ((x.run (u.withDiagnostics ds)).run journal).2 := rfl
  rw [hsplit, hrun, hrest, List.append_assoc]

/-- What is read of the unit is not its diagnostics. -/
theorem read {f : TemplateUnit → StateT TemplateUnit Traced α}
    (hread : ∀ u ds, f (u.withDiagnostics ds) = f u) (hf : ∀ u, Adds (f u)) :
    Adds (get >>= f) := by
  intro u journal
  obtain ⟨a, after, more, last, hopen, hrun⟩ := hf u u journal
  refine ⟨a, after, more, last, hopen, fun ds => ?_⟩
  have hget : ((get >>= f).run (u.withDiagnostics ds)).run journal =
      ((f (u.withDiagnostics ds)).run (u.withDiagnostics ds)).run journal := rfl
  rw [hget, hread, hrun]

section Failing
variable {x : UnitStep α}

theorem step_bind {f : α → UnitStep β} (hx : Adds x.run) (hf : ∀ a, Adds (f a).run) :
    Adds (x >>= f).run := by
  change Adds (x.run >>= ExceptT.bindCont f)
  refine hx.bind fun result => ?_
  cases result with
  | error e => exact pure (Except.error e)
  | ok a => exact hf a

theorem step_read {f : TemplateUnit → UnitStep α} (hread : ∀ u ds, f (u.withDiagnostics ds) = f u)
    (hf : ∀ u, Adds (f u).run) : Adds (get >>= f : UnitStep α).run :=
  read hread hf

theorem step_blind (x : Traced α) : Adds (liftM x : UnitStep α).run := fun u journal =>
  ⟨_, u, [], _, rfl, fun ds => by rw [List.append_nil]; rfl⟩

theorem step_modified {g : TemplateUnit → TemplateUnit} (more : List Diagnostic)
    (hopen : ∀ u, (g u).finished = u.finished)
    (hg : ∀ u ds, g (u.withDiagnostics ds) = (g u).withDiagnostics (ds ++ more)) :
    Adds (modify g : UnitStep PUnit).run := fun u journal =>
  ⟨.ok (), g u, more, journal, hopen u, fun ds => by rw [← hg]; rfl⟩

/-- A change to the rest of the unit. -/
theorem step_changed {g : TemplateUnit → TemplateUnit} (hopen : ∀ u, (g u).finished = u.finished)
    (hg : ∀ u ds, g (u.withDiagnostics ds) = (g u).withDiagnostics ds) :
    Adds (modify g : UnitStep PUnit).run :=
  step_modified [] hopen fun u ds => by rw [hg, List.append_nil]

end Failing

end Adds

theorem adds_emit (events : List Event) : Adds (emit events).run := Adds.step_blind _

theorem adds_requireOpen (change : UnitChange) : Adds (requireOpen change).run := by
  refine Adds.step_read (fun _ _ => rfl) fun u => ?_
  split
  · exact Adds.pure _
  · exact Adds.pure _

theorem adds_describe (issues : List Issue) : Adds (describe issues).run := by
  change Adds (_ >>= _)
  exact Adds.bind (Adds.blind _) fun result => Adds.pure _

theorem adds_recordIssues (source : Source) (component : String) (issues : List (Issue × String)) :
    Adds (recordIssues source component issues).run :=
  Adds.step_bind (Adds.step_modified _ (fun _ => rfl) fun _ _ => rfl) fun _ => adds_emit _

theorem run_get_bind (f : TemplateUnit → UnitStep α) (u : TemplateUnit) (journal : Journal) :
    ((get >>= f : UnitStep α).run.run u).run journal = ((f u).run.run u).run journal := rfl

/-- A template is compiled from its source and what the unit is set up with. -/
theorem run_add (source : Source) (u : TemplateUnit) (journal : Journal) :
    ((add source).run.run u).run journal =
      let last := ((Template.compile source u.helpers (some u.number) u.trimmed).run journal).2
      match Template.ofSource source u.helpers (some u.number) u.trimmed with
      | .error e => ((.error (.template e source), u), last)
      | .ok t => ((.ok t, { u with templates := u.templates ++ [t] }), last) := by
  have hcompile : ((liftM (Template.compile source u.helpers (some u.number) u.trimmed) :
      UnitStep (Except SyntaxError Template)).run.run u).run journal =
        ((.ok (Template.ofSource source u.helpers (some u.number) u.trimmed), u),
          ((Template.compile source u.helpers (some u.number) u.trimmed).run journal).2) := rfl
  rw [add, run_get_bind, run_bind, hcompile]
  dsimp only
  cases Template.ofSource source u.helpers (some u.number) u.trimmed <;> rfl

theorem adds_add (source : Source) : Adds (add source).run := by
  intro u journal
  let last := ((Template.compile source u.helpers (some u.number) u.trimmed).run journal).2
  cases h : Template.ofSource source u.helpers (some u.number) u.trimmed with
  | error e =>
    refine ⟨.error (.template e source), u, [], last, rfl, fun ds => ?_⟩
    rw [run_add, List.append_nil]
    simp only [withDiagnostics, h, last]
  | ok t =>
    refine ⟨.ok t, { u with templates := u.templates ++ [t] }, [], last, rfl, fun ds => ?_⟩
    rw [run_add, List.append_nil]
    simp only [withDiagnostics, h, last]

theorem adds_define (name : String) (declarations : List Declaration) :
    Adds (define name declarations).run := by
  refine Adds.step_bind (adds_requireOpen _) fun _ => Adds.step_read (fun _ _ => rfl) fun u => ?_
  dsimp only
  split
  · exact Adds.pure _
  · refine Adds.step_bind (adds_describe _) fun issues => ?_
    split
    · exact Adds.pure _
    · refine Adds.step_bind (adds_recordIssues _ _ _) fun _ => ?_
      refine Adds.step_bind (adds_add _) fun t => ?_
      exact Adds.step_bind (Adds.step_changed (fun _ => rfl) fun _ _ => rfl) fun _ => adds_emit _

theorem adds_use (moduleName : String) (other : FinishedUnit) : Adds (use moduleName other).run :=
  Adds.step_bind (adds_requireOpen _) fun _ => Adds.step_changed (fun _ => rfl) fun _ _ => rfl

theorem adds_importFrom (other : FinishedUnit) (names : Option (List String)) :
    Adds (importFrom other names).run :=
  Adds.step_bind (adds_requireOpen _) fun _ => Adds.step_changed (fun _ => rfl) fun _ _ => rfl

theorem adds_compile (text : String) (file : Option String) : Adds (compile text file).run := by
  refine Adds.step_read (fun _ _ => rfl) fun u => Adds.step_bind (adds_add _) fun t => ?_
  split
  · exact Adds.step_bind (adds_emit _) fun _ => Adds.pure _
  · exact Adds.pure _

/-! ### What a definition that fails leaves behind -/

variable {u after : TemplateUnit} {journal last : Journal}

theorem bind_error {x : UnitStep α} {f : α → UnitStep β} {e : UnitError}
    (h : ((x >>= f).run.run u).run journal = ((.error e, after), last)) :
    (x.run.run u).run journal = ((.error e, after), last) ∨
      ∃ a between next, (x.run.run u).run journal = ((.ok a, between), next) ∧
        ((f a).run.run between).run next = ((.error e, after), last) := by
  rw [run_bind] at h
  split at h
  · rename_i a between next hx
    exact .inr ⟨a, between, next, hx, h⟩
  · rename_i cause between next hx
    cases h
    exact .inl hx

theorem run_requireOpen (change : UnitChange) (u : TemplateUnit) (journal : Journal) :
    ((requireOpen change).run.run u).run journal =
      ((if u.finished.isSome then .error (.finished u.name change) else .ok (), u), journal) := by
  rw [requireOpen, run_get_bind]
  split <;> rfl

/-- A message that an issue comes to. -/
theorem yields_message (i : Issue) : Yields (fun _ => True)
    (fun message => ∃ start, (i.message.run.run start).1 = .ok message) i.message := by
  intro start _
  refine ⟨?_, trivial⟩
  cases h : (i.message.run.run start).1 with
  | error e => trivial
  | ok message => exact ⟨start, h⟩

/-- Issues are described in their order, and that fails only where a message has no value. -/
theorem run_describe (issues : List Issue) (u : TemplateUnit) (journal : Journal) :
    ∃ result next, ((describe issues).run.run u).run journal = ((result, u), next) ∧
      Ends (fun e => ∃ cause, e = .eval cause) (List.Forall₂
        (fun i d => d.1 = i ∧ ∃ start, (i.message.run.run start).1 = .ok d.2) issues) result := by
  let described : Eval (List (Issue × String)) := issues.mapM fun i => return (i, ← i.message)
  have hyields : Yields (fun _ => True) (List.Forall₂
      (fun i d => d.1 = i ∧ ∃ start, (i.message.run.run start).1 = .ok d.2) issues) described :=
    Yields.mapM_forall₂ (P := fun _ => True) (fun _ _ => trivial) fun i _ =>
      (yields_message i).bind fun _ hmessage => Yields.pure ⟨rfl, hmessage⟩
  refine ⟨(described.run.run journal.nextId).1.mapError .eval,
    { journal with nextId := (described.run.run journal.nextId).2 }, rfl, ?_⟩
  cases hrun : (described.run.run journal.nextId).1 with
  | error e => exact ⟨e, rfl⟩
  | ok ds => exact hyields.of_run trivial hrun

theorem run_recordIssues (source : Source) (component : String) (described : List (Issue × String))
    (u : TemplateUnit) (journal : Journal) : ∃ next,
      ((recordIssues source component described).run.run u).run journal =
        ((.ok (), u.withDiagnostics (u.diagnostics ++ described.map fun (i, message) =>
          i.code.report .verify source message none (i.data component))), next) :=
  ⟨_, rfl⟩

/-- A definition fails in an open unit where its template does, and then its issues are told; where
anything else fails, nothing has been done to the unit. -/
theorem run_define_error {name : String} {declarations : List Declaration} {e : UnitError}
    (h : ((define name declarations).run.run u).run journal = ((.error e, after), last)) :
    (after = u ∧ ∀ fault source, e ≠ .template fault source) ∨
    ∃ fault source left, e = .template fault source ∧ u.finished = none ∧
      List.Forall₂ (fun i d => i.ToldBy name source d) (Declared.ofList declarations).issues left ∧
      after = u.withDiagnostics (u.diagnostics ++ left) := by
  rw [define, run_bind, run_requireOpen] at h
  by_cases hopen : u.finished.isSome
  · rw [if_pos hopen] at h
    cases h
    exact .inl ⟨rfl, by rintro _ _ ⟨⟩⟩
  rw [if_neg hopen] at h
  rw [Option.not_isSome_iff_eq_none] at hopen
  dsimp only at h
  rw [run_get_bind] at h
  split at h
  · cases h
    exact .inl ⟨rfl, by rintro _ _ ⟨⟩⟩
  obtain ⟨result, next, hdescribe, hends⟩ :=
    run_describe (Declared.ofList declarations).issues u journal
  rw [run_bind, hdescribe] at h
  cases result with
  | error cause =>
    obtain ⟨cause, rfl⟩ := hends
    dsimp only at h
    cases h
    exact .inl ⟨rfl, by rintro _ _ ⟨⟩⟩
  | ok described =>
    dsimp only at h
    split at h
    · cases h
      exact .inl ⟨rfl, by rintro _ _ ⟨⟩⟩
    · rename_i text htext
      obtain ⟨next', hrecord⟩ :=
        run_recordIssues ⟨text, u.file ++ "#" ++ name⟩ name described u next
      rw [run_bind, hrecord] at h
      dsimp only at h
      obtain hadd | ⟨t, between, later, hadd, h⟩ := bind_error h
      · rw [run_add] at hadd
        dsimp only at hadd
        split at hadd
        · cases hadd
          refine .inr ⟨_, _, _, rfl, hopen, ?_, rfl⟩
          rw [List.forall₂_map_right_iff]
          refine List.Forall₂.imp ?_ hends
          rintro i ⟨_, message⟩ ⟨rfl, start, hmessage⟩
          exact ⟨message, start, hmessage, rfl⟩
        · cases hadd
      · cases h

/-! ### What a unit is asked later -/

/-- What a unit can be asked to do before it is finished. -/
inductive Call where
  | define (name : String) (declarations : List Declaration)
  | use (moduleName : String) (other : FinishedUnit)
  | importFrom (other : FinishedUnit) (names : Option (List String))
  | compile (text : String) (file : Option String)

/-- The step that is asked for; a template is the answer to a compilation only. -/
def Call.step : Call → UnitStep (Option Template)
  | define name declarations => do
    TemplateUnit.define name declarations
    return none
  | use moduleName other => do
    TemplateUnit.use moduleName other
    return none
  | importFrom other names => do
    TemplateUnit.importFrom other names
    return none
  | compile text file => do return some (← TemplateUnit.compile text file)

/-- The answers to calls in turn; one that fails does not keep the next from being made. -/
def answers : List Call → StateT TemplateUnit Traced (List (Except UnitError (Option Template)))
  | [] => return []
  | c :: rest => do
    let answer ← c.step.run
    return answer :: (← answers rest)

/-- What a unit answers to calls, and what it is when it is finished after them. -/
def finishAfter (calls : List Call) (u : TemplateUnit) (journal : Journal) :
    List (Except UnitError (Option Template)) × Except UnitError FinishedUnit :=
  let ((answered, after), next) := ((answers calls).run u).run journal
  (answered, ((finish.run.run after).run next).1.1)

/-- Whatever is asked of two units later, they answer the same, and they are the same when they are
finished, but for diagnostics that the second one has besides. -/
def SameBesides (left : List Diagnostic) (u v : TemplateUnit) : Prop :=
  ∀ calls journal, ∃ answered more, ∃ f : FinishedUnit, f.diagnostics = u.diagnostics ++ more ∧
    u.finishAfter calls journal = (answered, .ok f) ∧
    v.finishAfter calls journal =
      (answered, .ok { f with diagnostics := u.diagnostics ++ left ++ more })

theorem adds_step (c : Call) : Adds c.step.run := by
  cases c with
  | define name declarations => exact Adds.step_bind (adds_define _ _) fun _ => Adds.pure _
  | use moduleName other => exact Adds.step_bind (adds_use _ _) fun _ => Adds.pure _
  | importFrom other names => exact Adds.step_bind (adds_importFrom _ _) fun _ => Adds.pure _
  | compile text file => exact Adds.step_bind (adds_compile _ _) fun _ => Adds.pure _

theorem adds_answers (calls : List Call) : Adds (answers calls) := by
  induction calls with
  | nil => exact Adds.pure _
  | cons c rest ih => exact (adds_step c).bind fun _ => ih.bind fun _ => Adds.pure _

theorem run_finish (hopen : u.finished = none) (ds : List Diagnostic) (journal : Journal) :
    ((finish.run.run (u.withDiagnostics ds)).run journal).1.1 =
      .ok ⟨u.name, u.definitions, ds ++ u.templates.flatMap u.warnings⟩ := by
  have hfinished : (u.withDiagnostics ds).finished = none := hopen
  rw [finish, run_get_bind, hfinished]
  rfl

theorem sameBesides_withDiagnostics (hopen : u.finished = none) (left : List Diagnostic) :
    u.SameBesides left (u.withDiagnostics (u.diagnostics ++ left)) := by
  intro calls journal
  obtain ⟨answered, after, more, next, hstill, hrun⟩ := adds_answers calls u journal
  have hself : u.withDiagnostics u.diagnostics = u := rfl
  have hfinal := hstill.trans hopen
  refine ⟨answered, more ++ after.templates.flatMap after.warnings,
    ⟨after.name, after.definitions, _⟩, rfl, ?_, ?_⟩
  · have hplain := hrun u.diagnostics
    rw [hself] at hplain
    rw [finishAfter, hplain]
    dsimp only
    rw [run_finish hfinal, List.append_assoc]
  · rw [finishAfter, hrun]
    dsimp only
    rw [run_finish hfinal, List.append_assoc (u.diagnostics ++ left)]

/-- A definition that fails leaves the unit as it was, unless its template is at fault and its
declarations have issues. Then just these issues are told in the diagnostics, and they are all that
the finished unit will show of the attempt. -/
theorem define_failed {name : String} {declarations : List Declaration} {e : UnitError}
    (h : ((define name declarations).run.run u).run journal = ((.error e, after), last)) :
    (after = u ↔ (Declared.ofList declarations).issues = [] ∨
      ∀ fault source, e ≠ .template fault source) ∧
    ∀ fault source, e = .template fault source → ∃ left,
      List.Forall₂ (fun i d => i.ToldBy name source d) (Declared.ofList declarations).issues left ∧
      after = u.withDiagnostics (u.diagnostics ++ left) ∧ u.SameBesides left after := by
  obtain ⟨rfl, hother⟩ | ⟨fault, source, left, rfl, hopen, htold, rfl⟩ := run_define_error h
  · exact ⟨⟨fun _ => .inr hother, fun _ => rfl⟩,
      fun fault source he => absurd he (hother fault source)⟩
  · refine ⟨⟨fun hsame => .inl ?_, fun hnone => ?_⟩, ?_⟩
    · have hleft : u.diagnostics ++ left = u.diagnostics := congrArg diagnostics hsame
      rw [List.append_right_eq_self] at hleft
      rw [hleft] at htold
      exact List.forall₂_nil_right_iff.1 htold
    · obtain hnone | hother := hnone
      · rw [hnone, List.forall₂_nil_left_iff] at htold
        rw [htold, List.append_nil]
        rfl
      · exact absurd rfl (hother fault source)
    · rintro _ _ ⟨⟩
      exact ⟨left, htold, rfl, sameBesides_withDiagnostics hopen left⟩

/-- An attribute that is declared twice is told, though the template has a tag without an end. -/
theorem define_failed_unclosed :
    let u : TemplateUnit := ⟨0, "Ui", "Ui", true, [], [], [], [], [], [], none⟩
    let x : Declaration := .attr ⟨"x", .string, {}⟩
    let declarations := [x, x, .template "<p>"]
    ∃ fault source after last, ((define "a" declarations).run.run u).run {} =
        ((.error (.template fault source), after), last) ∧
      after.diagnostics.map Diagnostic.code = ["tessera/duplicate-attr-definition"] ∧
      after ≠ u ∧ ∃ left, List.Forall₂ (fun i d => i.ToldBy "a" source d)
          (Declared.ofList declarations).issues left ∧
        after = u.withDiagnostics (u.diagnostics ++ left) ∧ u.SameBesides left after := by
  intro u x declarations
  have hfails : (((define "a" declarations).run.run u).run {}).1.1.isOk = false := by decide +kernel
  have hcodes : (((define "a" declarations).run.run u).run {}).1.2.diagnostics.map Diagnostic.code =
      ["tessera/duplicate-attr-definition"] := by
    decide +kernel
  cases hrun : ((define "a" declarations).run.run u).run {} with
  | mk done last =>
    obtain ⟨result, after⟩ := done
    rw [hrun] at hfails hcodes
    cases result with
    | ok => cases hfails
    | error e =>
      obtain ⟨hsame, hleft⟩ := define_failed hrun
      have hchanged : after ≠ u := by
        rintro rfl
        cases hcodes
      obtain ⟨fault, source, rfl⟩ : ∃ fault source, e = .template fault source := by
        by_contra hnone
        exact hchanged (hsame.2 (.inr fun fault source he => hnone ⟨fault, source, he⟩))
      exact ⟨fault, source, after, last, rfl, hcodes, hchanged, hleft fault source rfl⟩

end TemplateUnit

end LiveTemplate
