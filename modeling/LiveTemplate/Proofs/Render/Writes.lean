import LiveTemplate.Proofs.Component.Applying
import LiveTemplate.Render.Arguments

/-!
A call of a component, step by step: what the arguments write, the lists of slot entries, and what
the spec makes of both. Each step comes to the same apart from identities wherever it starts.
-/

namespace LiveTemplate

set_option autoImplicit false

/-! ### What arguments write -/

namespace Argument

/-- What an argument writes when it is evaluated. -/
def writes (frame : Frame) : Argument → Eval (Record Value)
  | named name value _ _ => do
    let v ← value.eval frame.scope
    return [(name, v)]
  | spread value _ span => do
    let v ← value.eval frame.scope
    v.spreadFields span

/-- What an argument writes where held values are reused. -/
def writesWith (frame : Frame) (held : Option (Record Value)) (arg : Argument) :
    Eval (Record Value) :=
  match arg.held? frame held with
  | some write => return [write]
  | none => arg.writes frame

theorem assign_eq (frame : Frame) (values : Bindings) (arg : Argument) :
    arg.assign frame values = values.assignAll <$> arg.writes frame := by
  cases arg with
  | named name value reads span =>
    rw [assign, writes, map_bind]
    rfl
  | spread value reads span =>
    rw [assign, writes, map_bind]
    rfl

/-- The values are what the writes of all arguments come to. -/
theorem assignAll_eq (frame : Frame) (held : Option (Record Value)) (args : List Argument)
    (values : Bindings) : assignAll frame held args values =
      (fun ws => values.assignAll ws.flatten) <$> args.mapM (writesWith frame held) := by
  induction args generalizing values with
  | nil => rfl
  | cons arg rest ih =>
    have hrest : ∀ w : Record Value, assignAll frame held rest (values.assignAll w) =
        (fun ws => values.assignAll (w ++ ws.flatten)) <$> rest.mapM (writesWith frame held) := by
      intro w
      rw [ih]
      exact congrArg (· <$> rest.mapM (writesWith frame held))
        (funext fun ws => (Bindings.assignAll_append values w ws.flatten).symm)
    rw [assignAll, List.mapM_cons, map_bind, writesWith]
    cases arg.held? frame held with
    | some write =>
      dsimp only
      rw [pure_bind, map_bind]
      exact (hrest [write]).trans (bind_pure_comp _ _).symm
    | none =>
      dsimp only
      rw [assign_eq, bind_map_left]
      refine bind_congr fun w => ?_
      rw [map_bind]
      exact (hrest w).trans (bind_pure_comp _ _).symm

theorem writesWith_none (frame : Frame) : writesWith frame none = writes frame := by
  funext arg
  cases arg <;> rfl

/-- An argument writes a name, once all that it can look up is there. -/
def Gives (frame : Frame) (arg : Argument) (name : String) : Prop :=
  ∃ n ws, frame.Before n ∧ ComesTo n (arg.writes frame) ws ∧ name ∈ Assoc.keys ws

theorem eq_of_gives_named {frame : Frame} {name other : String} {value : Expr} {reads : Reads}
    {span : Span} (h : (named name value reads span).Gives frame other) : other = name := by
  obtain ⟨n, ws, -, hws, hmem⟩ := h
  rw [writes, bind_pure_comp] at hws
  obtain ⟨v, -, rfl⟩ := hws.map
  exact List.mem_singleton.mp hmem

section Frames
variable {f : Frame} {n : Identity} (hf : f.Before n)

theorem both_spreadFields {σ : Pairing} {v w : Value} (h : Alike σ v w) (span : Span) :
    Both σ (NamesAlike σ) (v.spreadFields span) (w.spreadFields span) := by
  have hfields := h.fields?_rel
  unfold Value.spreadFields
  refine Both.ite h.isAbsent_eq (fun _ => .pure .nil) fun _ => ?_
  rw [h.describe_eq]
  generalize v.fields? = a at hfields
  generalize w.fields? = b at hfields
  cases hfields with
  | none => exact .fail _ span
  | some hfields => exact .pure hfields

include hf

theorem both_writes {σ : Pairing} (hσ : σ.Exact) (hn : ∀ i < n, σ i i) (arg : Argument) :
    Both σ (NamesAlike σ) (arg.writes f) (arg.writes f) := by
  cases arg with
  | named name value reads span =>
    exact (value.both_eval_self hσ hn hf).bind fun _ _ h => .pure (.cons ⟨rfl, h⟩ .nil)
  | spread value reads span =>
    exact (value.both_eval_self hσ hn hf).bind fun _ _ h => both_spreadFields h span

/-- An argument writes the same apart from identities wherever its evaluation starts. -/
theorem repeats_writes (arg : Argument) :
    Repeats n n (fun ws us => Record.essence ws = Record.essence us) (arg.writes f)
      (arg.writes f) :=
  .of_both hf.shared (fun _ hσ hn => both_writes hf hσ hn arg) fun _ _ _ h =>
    Record.essence_eq_of_forall₂ (h.imp fun _ _ hab =>
      ⟨hab.1, Value.essence_eq_of_content hab.2.content_eq⟩)

theorem gives_iff {arg : Argument} {ws : Record Value} (hws : ComesTo n (arg.writes f) ws)
    {name : String} : arg.Gives f name ↔ name ∈ Assoc.keys ws := by
  refine ⟨?_, fun hmem => ⟨n, ws, hf, hws, hmem⟩⟩
  rintro ⟨m, us, hm, hus, hmem⟩
  have hsame : Record.essence ws = Record.essence us := by
    rcases Nat.le_total n m with hle | hle
    · exact (repeats_writes hf arg).of_comesTo hws (hus.mono hle)
    · exact (repeats_writes hm arg).of_comesTo (hws.mono hle) hus
  rwa [← Record.keys_essence, hsame, Record.keys_essence]

theorem repeats_assignAll (args : List Argument) :
    Repeats n n (fun b c => b.essence = c.essence) (assignAll f none args {})
      (assignAll f none args {}) := by
  have hargs : Repeats n n (List.Forall₂ fun ws us => Record.essence ws = Record.essence us)
      (args.mapM (writesWith f none)) (args.mapM (writesWith f none)) := by
    rw [writesWith_none]
    exact .mapM (List.forall₂_same.mpr fun arg _ => repeats_writes hf arg)
  rw [assignAll_eq]
  refine hargs.map fun ws us h => ?_
  rw [Bindings.assignAll_essence, Bindings.assignAll_essence, Record.essence_flatten,
    Record.essence_flatten, map_eq_map_of_forall₂ h fun _ _ hwu => hwu]

end Frames

end Argument

/-! ### Slots -/

/-- The entries of slots apart from identities. -/
def slotsEssence (slots : Assoc String (List Value)) : Assoc String (List Value) :=
  Record.mapValues (List.map Value.essence) slots

section Slots
variable {f : Frame} {n : Identity} (hf : f.Before n) (tracked other : Bool)
include hf

/-- Entries do not differ by more than what their blocks know of changes. -/
theorem SlotPlan.repeats_entry (plan : SlotPlan) :
    Repeats n n (fun v w => v.essence = w.essence) (plan.entry f tracked) (plan.entry f other) := by
  have hmade : ∀ {b c : Bindings} {v w : Value}, b.essence = c.essence → v.essence = w.essence →
      Repeats n n (fun v w => v.essence = w.essence)
        (Eval.newRecord (Record.insert (Record.insert b.fields "__slot__" (.text plan.name))
          innerBlock v))
        (Eval.newRecord (Record.insert (Record.insert c.fields "__slot__" (.text plan.name))
          innerBlock w)) := by
    intro b c v w hbc hvw
    refine (Repeats.lift FreshRepeats.freshId).bind fun i j _ => .pure ?_
    have hfields : Record.essence b.fields = Record.essence c.fields := congrArg Bindings.fields hbc
    rw [Value.essence_record, Value.essence_record]
    simp only [Record.essence, ← Record.insert_mapValues] at hfields ⊢
    rw [hfields, hvw]
  unfold SlotPlan.entry
  refine (Argument.repeats_assignAll hf plan.attributes).bind fun b c hbc => ?_
  cases plan.body with
  | none => exact hmade hbc rfl
  | some body => exact (Repeats.lift FreshRepeats.freshId).bind fun i j _ => hmade hbc rfl

theorem SlotPlan.repeats_entries (plans : List SlotPlan) {slots others : Assoc String (List Value)}
    (h : slotsEssence slots = slotsEssence others) :
    Repeats n n (fun a b => slotsEssence a = slotsEssence b ∧
        ∀ name, name ∈ Assoc.keys a ↔ name ∈ plans.map SlotPlan.name ∨ name ∈ Assoc.keys slots)
      (SlotPlan.entries f tracked plans slots) (SlotPlan.entries f other plans others) := by
  induction plans generalizing slots others with
  | nil => exact .pure ⟨h, fun name => (or_iff_right List.not_mem_nil).symm⟩
  | cons plan rest ih =>
    rw [SlotPlan.entries, SlotPlan.entries]
    refine (SlotPlan.repeats_entry hf tracked other plan).bind fun e e' he => ?_
    have hheld : ((Assoc.get? slots plan.name).getD [] ++ [e]).map Value.essence =
        ((Assoc.get? others plan.name).getD [] ++ [e']).map Value.essence := by
      have hget := congrArg (Assoc.get? · plan.name) h
      simp only [slotsEssence, Record.get?_mapValues] at hget
      have hgetD : ∀ o : Option (List Value), (o.getD []).map Value.essence =
          (o.map (List.map Value.essence)).getD [] := fun o =>
        (Option.getD_map (List.map Value.essence) [] o).symm
      rw [List.map_append, List.map_append, List.map_singleton, List.map_singleton, he, hgetD,
        hgetD, hget]
    have hset : slotsEssence (Assoc.set slots plan.name ((Assoc.get? slots plan.name).getD [] ++ [e]))
        = slotsEssence (Assoc.set others plan.name
          ((Assoc.get? others plan.name).getD [] ++ [e'])) := by
      rw [slotsEssence, slotsEssence, ← Record.set_mapValues, ← Record.set_mapValues, hheld]
      exact congrArg (Assoc.set · _ _) h
    refine (ih hset).imp fun a b hab => ⟨hab.1, fun name => ?_⟩
    rw [hab.2 name, Assoc.keys_set, List.map_cons, List.mem_cons]
    split
    · rename_i hmem
      constructor
      · rintro (hname | hname)
        · exact .inl (.inr hname)
        · exact .inr hname
      · rintro ((rfl | hname) | hname)
        · exact .inr hmem
        · exact .inl hname
        · exact .inr hname
    · rw [List.mem_append, List.mem_singleton, or_comm (a := name = plan.name), or_assoc,
        or_comm (a := name = plan.name)]

end Slots

/-! ### Calls -/

/-- The held values that a render of a node has at hand. -/
def Frame.heldBy (frame : Frame) (node : Option Instance) : Option (Record Value) :=
  if frame.changed.isSome then node.map Instance.assigns else none

namespace ComponentPlan

/-- The lists of slot entries, by the names of the slots. -/
def slotFields (plan : ComponentPlan) (frame : Frame) (tracked : Bool) : Eval (Record Value) := do
  let slots ← SlotPlan.entries frame tracked plan.slots []
  slots.mapM fun s => do
    let v ← Eval.newList s.2
    return (s.1, v)

/-- The bindings for a call, with the values that are held. -/
def bindings (plan : ComponentPlan) (frame : Frame) (spec : ComponentSpec)
    (held : Option (Record Value)) : Eval Bindings := do
  let ws ← plan.attributes.mapM (Argument.writesWith frame held)
  let lists ← plan.slotFields frame held.isSome
  liftM (spec.apply (({} : Bindings).assignAll (ws.flatten ++ lists)).fields)

variable {plan : ComponentPlan} {spec : ComponentSpec} {f : Frame} {n : Identity}

theorem calleeAssigns_eq (node : Option Instance) : plan.calleeAssigns f spec node =
    (fun assigns => ⟨assigns, (f.heldBy node).map fun h => plan.changes f h assigns.fields⟩) <$>
      plan.bindings f spec (f.heldBy node) := by
  unfold calleeAssigns
  dsimp only
  rw [bindings, Argument.assignAll_eq, bind_map_left, map_bind]
  refine bind_congr fun ws => ?_
  rw [slotFields, bind_assoc, map_bind]
  refine bind_congr fun slots => ?_
  rw [map_bind]
  refine bind_congr fun lists => ?_
  rw [Bindings.assignAll_append]
  exact bind_pure_comp _ _

theorem repeats_lists {slots others : Assoc String (List Value)}
    (h : List.Forall₂ (fun a b => a.1 = b.1 ∧ a.2.map Value.essence = b.2.map Value.essence) slots
      others) :
    Repeats n n (fun a b => Assoc.keys a = Assoc.keys slots ∧ Record.essence a = Record.essence b)
      (slots.mapM fun s => do
        let v ← Eval.newList s.2
        return (s.1, v))
      (others.mapM fun s => do
        let v ← Eval.newList s.2
        return (s.1, v)) := by
  induction h with
  | nil => exact .pure ⟨rfl, rfl⟩
  | @cons s t _ _ hst _ ih =>
    rw [List.mapM_cons, List.mapM_cons]
    refine Repeats.bind (R := fun a b : String × Value =>
      a.1 = s.1 ∧ a.1 = b.1 ∧ a.2.essence = b.2.essence) ?_ fun a b hab => ih.bind fun as bs habs => ?_
    · refine (Repeats.lift FreshRepeats.freshId).bind fun i j _ => .pure ⟨rfl, hst.1, ?_⟩
      rw [Value.essence_list, Value.essence_list, hst.2]
    · exact .pure ⟨congrArg₂ List.cons hab.1 habs.1,
        congrArg₂ List.cons (Prod.ext hab.2.1 hab.2.2) habs.2⟩

section Frames
variable (hf : f.Before n)
include hf

/-- The lists of entries are named as the slots of the plan are. -/
theorem repeats_slotFields (tracked other : Bool) :
    Repeats n n (fun a b => Record.essence a = Record.essence b ∧
        ∀ name, name ∈ Assoc.keys a ↔ name ∈ plan.slots.map SlotPlan.name)
      (plan.slotFields f tracked) (plan.slotFields f other) := by
  unfold slotFields
  refine (SlotPlan.repeats_entries hf tracked other plan.slots rfl).bind fun slots others h => ?_
  have hpairs : List.Forall₂ (fun a b : String × List Value =>
      a.1 = b.1 ∧ a.2.map Value.essence = b.2.map Value.essence) slots others := by
    have heq := List.forall₂_eq_eq_eq.symm ▸ h.1
    rw [slotsEssence, slotsEssence, Record.mapValues, Record.mapValues, List.forall₂_map_left_iff,
      List.forall₂_map_right_iff] at heq
    exact heq.imp fun _ _ hab => Prod.ext_iff.mp hab
  refine (repeats_lists hpairs).imp fun a b hab => ⟨hab.2, fun name => ?_⟩
  rw [hab.1, h.2 name]
  exact or_iff_left List.not_mem_nil

/-- Values that are overtaken make no difference to a call. -/
theorem repeats_bindings {held other : Option (Record Value)}
    (hwrites : Repeats n n (fun ws us => Overtaken (plan.slots.map SlotPlan.name)
        (Record.essence ws.flatten) (Record.essence us.flatten))
      (plan.attributes.mapM (Argument.writesWith f held))
      (plan.attributes.mapM (Argument.writesWith f other))) :
    Repeats n n (fun b c => b.essence = c.essence) (plan.bindings f spec held)
      (plan.bindings f spec other) := by
  unfold bindings
  refine hwrites.bind fun ws us hws => ?_
  refine (repeats_slotFields hf _ _).bind fun lists more hlists => ?_
  refine Repeats.lift (ComponentSpec.repeats_apply ?_)
  have hmore : ∀ name ∈ plan.slots.map SlotPlan.name, name ∈ Assoc.keys (Record.essence more) := by
    intro name hname
    rw [← hlists.1, Record.keys_essence]
    exact (hlists.2 name).mpr hname
  have hvalues : (({} : Bindings).assignAll (ws.flatten ++ lists)).essence =
      (({} : Bindings).assignAll (us.flatten ++ more)).essence := by
    rw [Bindings.assignAll_essence, Bindings.assignAll_essence, Record.essence_append,
      Record.essence_append, hlists.1]
    exact hws.assignAll_eq hmore _
  exact congrArg Bindings.fields hvalues

/-- What the bindings are made of when nothing is held. Only what is written last under a name is
found among them. -/
theorem comesTo_bindings {made : Bindings} (h : ComesTo n (plan.bindings f spec none) made) :
    ∃ ws lists, List.Forall₂ (fun arg w => ComesTo n (Argument.writes f arg) w) plan.attributes ws ∧
      (∀ name, name ∈ Assoc.keys lists ↔ name ∈ plan.slots.map SlotPlan.name) ∧
      ∀ name ≠ parentName, ∀ before v after, ws.flatten ++ lists = before ++ (name, v) :: after →
        name ∉ Assoc.keys after → ∀ u, Assoc.get? made.fields name = some u → u = v := by
  have hwrites : ∀ arg ∈ plan.attributes, Repeats n n
      (fun ws us => Record.essence ws = Record.essence us) (arg.writes f) (arg.writes f) :=
    fun arg _ => arg.repeats_writes hf
  unfold bindings at h
  rw [Argument.writesWith_none] at h
  obtain ⟨ws, hws, h⟩ := h.bind (Repeats.mapM (List.forall₂_same.mpr hwrites))
  obtain ⟨lists, hlists, h⟩ := h.bind (repeats_slotFields hf _ _)
  have hnames := ((repeats_slotFields hf _ _).of_comesTo hlists hlists).2
  refine ⟨ws, lists, hws.mapM hwrites, hnames, ?_⟩
  intro name hname before v after hsplit hafter u hu
  obtain ⟨i, -, h⟩ := h
  have hnodup : (Assoc.keys (({} : Bindings).assignAll (ws.flatten ++ lists)).fields).Nodup :=
    Bindings.nodup_assignAll (b := {}) List.nodup_nil _
  have hlast : Assoc.get? (({} : Bindings).assignAll (ws.flatten ++ lists)).fields name = some v := by
    rw [hsplit]
    exact Bindings.get?_assignAll_last hname hafter _ _ _
  have hmade : ((spec.apply (({} : Bindings).assignAll (ws.flatten ++ lists)).fields).run i).1 = made :=
    Except.ok.inj h
  have hheld := (spec.get?_apply hnodup hname hlast i trivial).1
  rw [hmade] at hheld
  exact hheld u hu

end Frames

end ComponentPlan

end LiveTemplate
