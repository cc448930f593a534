import LiveTemplate.Proofs.Render.Writes

/-!
A component keeps the values it holds for arguments that no change affects. What it holds under a
name is the last value written there, which need not be that of the argument that is passed over: it
is as long as an argument that wrote the name later, in the render before, still has one after it
that does. Then nobody can tell that arguments were passed over.
-/

namespace LiveTemplate

set_option autoImplicit false

/-! ### Arguments that are passed over -/

namespace Argument

variable {g : Frame} {m : Identity} {held : Record Value} {more : List String}

/-- What is written in place of an argument is what it would write, or one name that is written again
later on. -/
def Stands (g : Frame) (more : List String) (rest : List Argument) (ws us : Record Value) : Prop :=
  Record.essence ws = Record.essence us ∨
    ∃ name v u, ws = [(name, v)] ∧ us = [(name, u)] ∧ name ≠ parentName ∧
      (name ∈ more ∨ ∃ arg ∈ rest, arg.Gives g name)

theorem held?_eq_some {arg : Argument} {write : String × Value}
    (h : arg.held? g (some held) = some write) :
    ∃ value reads span, arg = .named write.1 value reads span ∧
      Assoc.get? held write.1 = some write.2 ∧ reads.isAffected g.changed = false := by
  cases arg with
  | spread => cases h
  | named name value reads span =>
    obtain ⟨v, hv, h⟩ := Option.bind_eq_some_iff.mp h
    split at h
    · cases h
    · rename_i haffected
      cases h
      exact ⟨value, reads, span, rfl, hv, eq_false_of_ne_true haffected⟩

/-- The names that arguments write are those that some of them gives. -/
theorem mem_keys_flatten_iff (hg : g.Before m) {args : List Argument} {us : List (Record Value)}
    (hus : List.Forall₂ (fun arg us => ComesTo m (arg.writes g) us) args us) {name : String} :
    name ∈ Assoc.keys us.flatten ↔ ∃ arg ∈ args, arg.Gives g name := by
  induction hus with
  | nil => exact ⟨fun h => absurd h List.not_mem_nil, fun ⟨_, h, _⟩ => absurd h List.not_mem_nil⟩
  | cons hhead _ ih =>
    rw [List.flatten_cons, Assoc.keys, List.map_append, List.mem_append, List.exists_mem_cons_iff]
    exact or_congr (gives_iff hg hhead).symm ih

/-- If what is written in place of each argument stands for what the argument would write, all the
writes come to the same. -/
theorem repeats_writesWith (hg : g.Before m) {args : List Argument}
    (hargs : ∀ arg rest, arg :: rest <:+ args → Repeats m m (Stands g more rest)
      (arg.writesWith g (some held)) (arg.writes g)) :
    Repeats m m (fun ws us => Overtaken more (Record.essence ws.flatten) (Record.essence us.flatten) ∧
        List.Forall₂ (fun arg us => ComesTo m (arg.writes g) us) args us)
      (args.mapM (writesWith g (some held))) (args.mapM (writes g)) := by
  -- Along the arguments, together with what those that come later write: it tells whether the name of
  -- an argument is written again.
  induction args with
  | nil => exact .pure ⟨.nil, .nil⟩
  | cons arg rest ih =>
    have hhead := (hargs arg rest List.suffix_rfl).comesTo
    have htail := ih fun arg' rest' hsuffix =>
      hargs arg' rest' (hsuffix.trans (List.suffix_cons arg rest))
    rw [List.mapM_cons, List.mapM_cons]
    refine hhead.bind fun ws us hws => htail.bind fun wss uss hwss =>
      .pure ⟨?_, .cons hws.2.2 hwss.2⟩
    rw [List.flatten_cons, List.flatten_cons, Record.essence_append, Record.essence_append]
    rcases hws.1 with hsame | ⟨name, v, u, rfl, rfl, hname, hagain⟩
    · rw [hsame]
      exact hwss.1.append_same _
    · change Overtaken more ((name, v.essence) :: Record.essence wss.flatten)
        ((name, u.essence) :: Record.essence uss.flatten)
      refine .again _ _ hname ?_ hwss.1
      rw [Record.keys_essence]
      exact hagain.symm.imp_left (mem_keys_flatten_iff hg hwss.2).mpr

end Argument

/-! ### Renders of one call in turn -/

/-- A call passes over an argument that stands before others: a value is held under its name, and no
change affects what it reads. -/
structure ComponentPlan.PassesOver (plan : ComponentPlan) (held : Record Value)
    (changed : ChangedSet) (name : String) (value : Expr) (reads : Reads) (rest : List Argument) :
    Prop where
  place : ∃ span, .named name value reads span :: rest <:+ plan.attributes
  held : Assoc.contains held name = true
  unaffected : reads.isAffected (some changed) = false

/-- A render of a call after another one of the same call, whose changes are those between their
frames. What is known of an argument that is passed over are its reads; if a later argument wrote its
name before then one of the later arguments still does. -/
structure ComponentPlan.Renews (plan : ComponentPlan) (scope : NameScope) (held : Record Value)
    (changed : ChangedSet) (f g : Frame) (n m : Identity) : Prop where
  start : f.Before n
  restart : g.Before m
  differ : f.DifferBy changed g
  older : f.Older changed g n m
  names : scope.Describes f
  reads : ∀ {name value reads rest}, plan.PassesOver held changed name value reads rest →
    reads = value.reads scope ∧ ∀ s ∈ value.spelled, Unseparated s
  parent : ∀ {name value reads rest}, plan.PassesOver held changed name value reads rest →
    name ≠ parentName
  again : ∀ {name value reads rest}, plan.PassesOver held changed name value reads rest →
    name ∉ plan.slots.map SlotPlan.name → (∃ arg ∈ rest, arg.Gives f name) →
      ∃ arg ∈ rest, arg.Gives g name

/-- What an instance can hold after renders of a call, the last of them in a frame: it was mounted
there, or it was renewed there by a render that followed such a render. -/
inductive ComponentPlan.Produced (plan : ComponentPlan) (spec : ComponentSpec) (scope : NameScope) :
    Frame → Identity → Record Value → Prop
  | mounted {f : Frame} {n k : Identity} {made : CalleeAssigns}
      (h : (plan.calleeAssigns f spec none).run.run n = (.ok made, k)) :
      Produced plan spec scope f n made.assigns.fields
  | renewed {f g : Frame} {n m k : Identity} {node : Instance} {made : CalleeAssigns}
      (hnode : Produced plan spec scope f n node.assigns)
      (hrenews : ∀ changed, g.changed = some changed →
        plan.Renews scope node.assigns changed f g n m)
      (h : (plan.calleeAssigns g spec (some node)).run.run m = (.ok made, k)) :
      Produced plan spec scope g m made.assigns.fields

theorem forall₂_split {α β : Type} {R : α → β → Prop} {before rest : List α} {x : α} {ys : List β}
    (h : List.Forall₂ R (before ++ x :: rest) ys) :
    ∃ left y right, ys = left ++ y :: right ∧ R x y ∧ List.Forall₂ R rest right := by
  induction before generalizing ys with
  | nil =>
    cases h with
    | cons hxy hrest => exact ⟨[], _, _, rfl, hxy, hrest⟩
  | cons _ before ih =>
    cases h with
    | @cons _ z _ _ _ hrest =>
      obtain ⟨left, y, right, rfl, hxy, hrest⟩ := ih hrest
      exact ⟨z :: left, y, right, rfl, hxy, hrest⟩

namespace ComponentPlan

section Step
variable {plan : ComponentPlan} {spec : ComponentSpec} {scope : NameScope} {held : Record Value}
  {changed : ChangedSet} {f g : Frame} {n m : Identity}
  (h : plan.Renews scope held changed f g n m)
include h

/-- An argument that is passed over would write the same as before. -/
theorem Renews.repeats_writes {name : String} {value : Expr} {reads : Reads} {rest : List Argument}
    (hpassed : plan.PassesOver held changed name value reads rest) (span : Span) :
    Repeats n m (fun ws us => ∃ v u, ws = [(name, v)] ∧ us = [(name, u)] ∧ v.essence = u.essence)
      ((Argument.named name value reads span).writes f)
      ((Argument.named name value reads span).writes g) := by
  obtain ⟨rfl, hspelled⟩ := h.reads hpassed
  have heval := Expr.repeats_eval_of_unaffected h.differ h.older h.start h.restart h.names hspelled
    hpassed.unaffected
  exact heval.bind fun v u hvu => .pure ⟨v, u, rfl, rfl, Value.essence_eq_of_content hvu⟩

variable {made : Bindings} (hchanged : g.changed = some changed)
  (hmade : ComesTo n (plan.bindings f spec none) made)
  (hheld : Record.essence held = Record.essence made.fields)
include hmade hheld

/-- What is held under a name that no later argument gives, nor a slot, is what the argument that is
passed over would write. -/
theorem Renews.held_same {name : String} {value : Expr} {reads : Reads} {rest : List Argument}
    (hpassed : plan.PassesOver held changed name value reads rest)
    (hslots : name ∉ plan.slots.map SlotPlan.name) (hrest : ¬ ∃ arg ∈ rest, arg.Gives g name)
    {v u : Value} (hv : Assoc.get? held name = some v) {span : Span}
    (hu : ComesTo m ((Argument.named name value reads span).writes g) [(name, u)]) :
    v.essence = u.essence := by
  obtain ⟨ws, lists, hws, hlists, hlast⟩ := comesTo_bindings h.start hmade
  obtain ⟨span', before, hbefore⟩ := hpassed.place
  rw [← hbefore] at hws
  obtain ⟨left, w, right, rfl, hw, hright⟩ := forall₂_split hws
  obtain ⟨v', u', rfl, hwritten, hsame⟩ := (h.repeats_writes hpassed span').of_comesTo hw hu
  obtain rfl : u = u' := by
    cases hwritten
    rfl
  have hafter : name ∉ Assoc.keys (right.flatten ++ lists) := by
    rw [Assoc.keys, List.map_append, List.mem_append, not_or]
    refine ⟨fun hmem => ?_, fun hmem => hslots ((hlists name).mp hmem)⟩
    exact hrest (h.again hpassed hslots ((Argument.mem_keys_flatten_iff h.start hright).mp hmem))
  have hsplit : (left ++ [(name, v')] :: right).flatten ++ lists =
      left.flatten ++ (name, v') :: (right.flatten ++ lists) := by
    rw [List.flatten_append, List.flatten_cons, List.append_assoc, List.singleton_append,
      List.cons_append]
  have hget := congrArg (Assoc.get? · name) hheld
  simp only [Record.essence, Record.get?_mapValues, hv, Option.map_some] at hget
  obtain ⟨held', hheld', hessence⟩ := Option.map_eq_some_iff.mp hget.symm
  obtain rfl := hlast name (h.parent hpassed) _ v' _ hsplit hafter held' hheld'
  exact hessence.symm.trans hsame

include hchanged

/-- What is written in place of an argument stands for what the argument would write. -/
theorem Renews.stands {arg : Argument} {rest : List Argument}
    (hsuffix : arg :: rest <:+ plan.attributes) :
    Repeats m m (Argument.Stands g (plan.slots.map SlotPlan.name) rest)
      (arg.writesWith g (some held)) (arg.writes g) := by
  rw [Argument.writesWith]
  cases hskip : arg.held? g (some held) with
  | none => exact (arg.repeats_writes h.restart).imp fun _ _ => .inl
  | some write =>
    obtain ⟨name, v⟩ := write
    obtain ⟨value, reads, span, rfl, hv, hunaffected⟩ := Argument.held?_eq_some hskip
    rw [hchanged] at hunaffected
    have hpassed : plan.PassesOver held changed name value reads rest :=
      ⟨⟨span, hsuffix⟩, by rw [Assoc.contains, hv, Option.isSome_some], hunaffected⟩
    -- It came to something the last time, so it does now.
    obtain ⟨ws, lists, hws, -, -⟩ := comesTo_bindings h.start hmade
    obtain ⟨before, hbefore⟩ := hsuffix
    rw [← hbefore] at hws
    obtain ⟨left, w, right, rfl, hw, -⟩ := forall₂_split hws
    refine ((h.repeats_writes hpassed span).of_comesTo_left hw [(name, v)]).comesTo.imp ?_
    rintro _ _ ⟨⟨rfl, v', u, -, rfl, -⟩, -, hu⟩
    by_cases hagain : name ∈ plan.slots.map SlotPlan.name ∨ ∃ arg ∈ rest, arg.Gives g name
    · exact .inr ⟨name, v, u, rfl, rfl, h.parent hpassed, hagain⟩
    · rw [not_or] at hagain
      exact .inl (congrArg (fun e => [(name, e)])
        (h.held_same hmade hheld hpassed hagain.1 hagain.2 hv hu))

/-- A call comes to the same whether or not it reuses what is held. -/
theorem Renews.repeats_bindings :
    Repeats m m (fun b c => b.essence = c.essence) (plan.bindings g spec (some held))
      (plan.bindings g spec none) := by
  refine ComponentPlan.repeats_bindings h.restart ?_
  rw [Argument.writesWith_none]
  exact (Argument.repeats_writesWith h.restart fun arg rest hsuffix =>
    h.stands hchanged hmade hheld hsuffix).imp fun _ _ => And.left

end Step

section Runs
variable {plan : ComponentPlan} {spec : ComponentSpec} {scope : NameScope} {f g : Frame}
  {n m : Identity}

theorem heldBy_none (f : Frame) : f.heldBy none = none := by
  rw [Frame.heldBy]
  split <;> rfl

/-- What is held after renders in turn is what a call comes to that reuses nothing. -/
theorem Produced.exists_bindings {held : Record Value} (h : plan.Produced spec scope f n held) :
    ∃ made, ComesTo n (plan.bindings f spec none) made ∧
      Record.essence held = Record.essence made.fields := by
  induction h with
  | @mounted f n k made h =>
    have hmade : ComesTo n (plan.calleeAssigns f spec none) made :=
      ⟨n, Nat.le_refl n, congrArg Prod.fst h⟩
    rw [calleeAssigns_eq, heldBy_none] at hmade
    obtain ⟨assigns, hassigns, rfl⟩ := hmade.map
    exact ⟨assigns, hassigns, rfl⟩
  | @renewed f g n m k node made hnode hrenews h ih =>
    have hmade : ComesTo m (plan.calleeAssigns g spec (some node)) made :=
      ⟨m, Nat.le_refl m, congrArg Prod.fst h⟩
    rw [calleeAssigns_eq] at hmade
    obtain ⟨assigns, hassigns, rfl⟩ := hmade.map
    rw [Frame.heldBy] at hassigns
    cases hchanged : g.changed with
    | none =>
      rw [hchanged] at hassigns
      exact ⟨assigns, hassigns, rfl⟩
    | some changed =>
      rw [hchanged] at hassigns
      obtain ⟨before, hbefore, hheld⟩ := ih
      have hsame := (hrenews changed hchanged).repeats_bindings hchanged hbefore hheld
      obtain ⟨other, hother, hessence⟩ := hsame.exists_comesTo hassigns
      exact ⟨other, hother, congrArg Bindings.fields hessence⟩

end Runs

end ComponentPlan

/-! ### A card -/

namespace ComponentPlan

/-- A field of the user, read at an offset. -/
def userField (name : String) (offset : Nat) : Expr :=
  .member (.name "user" ⟨offset, offset + 4⟩) name false ⟨offset, offset + 5 + name.length⟩

/-- The call of a card that is given the name and the age of a user. -/
def card : ComponentPlan where
  tag := "card"
  target := ⟨none, "card"⟩
  attributes :=
    [.named "title" (userField "name" 13) ((userField "name" 13).reads rootNames) ⟨6, 23⟩,
      .named "count" (userField "age" 31) ((userField "age" 31).reads rootNames) ⟨24, 40⟩]
  slots := []
  call := ⟨⟨none, "card"⟩, [], [], false, false, "nofile", ⟨0, 42⟩⟩
  reads := .empty
  span := ⟨0, 42⟩

/-- The card as it was mounted, when the user was a year younger. -/
def cardNode : Instance where
  cid := 1
  key := "root/0:Ui.card"
  tree := default
  assigns := [("title", .text "Ada"), ("count", .number 36)]
  children := []

/-- The frame of the next render. -/
def agedFrame : Frame := { Frame.holding 4 [("user", user 3 37)] with changed := some aged }

/-- Only the title is passed over. -/
theorem card_passesOver {name : String} {value : Expr} {reads : Reads} {rest : List Argument}
    (h : card.PassesOver cardNode.assigns aged name value reads rest) :
    name = "title" ∧ value = userField "name" 13 ∧ reads = (userField "name" 13).reads rootNames ∧
      rest = [.named "count" (userField "age" 31) ((userField "age" 31).reads rootNames) ⟨24, 40⟩] := by
  obtain ⟨⟨span, hplace⟩, -, hunaffected⟩ := h
  rcases List.suffix_cons_iff.mp hplace with htitle | hplace
  · cases htitle
    exact ⟨rfl, rfl, rfl, rfl⟩
  · rcases List.suffix_cons_iff.mp hplace with hcount | hplace
    · cases hcount
      exact absurd hunaffected (by decide)
    · cases List.suffix_nil.mp hplace

theorem card_renews : card.Renews rootNames cardNode.assigns aged (.holding 2 [("user", user 1 36)])
    agedFrame 5 5 where
  start := ⟨by decide, by
    simp [Frame.scope, Frame.holding, user, standardHelpers, Value.LayersUse, Value.NamesUse,
      Value.Uses, Parent.Uses]⟩
  restart := ⟨by decide, by
    simp [agedFrame, Frame.scope, Frame.holding, user, standardHelpers, Value.LayersUse,
      Value.NamesUse, Value.Uses, Parent.Uses]⟩
  differ :=
    have h := aged_differ 1 3 36 37
    ⟨⟨h.locals, h.helpers, h.parent, h.same⟩, h.shaped, h.whole⟩
  older :=
    have h := aged_older
    ⟨h.assigns, h.common, h.bindings, h.parent, h.helpers⟩
  names := rootNames_describes 2 _
  reads := fun h => by
    obtain ⟨-, rfl, rfl, -⟩ := card_passesOver h
    exact ⟨rfl, by decide⟩
  parent := fun h => by
    obtain ⟨rfl, -, -, -⟩ := card_passesOver h
    decide
  again := fun h _ hgives => by
    obtain ⟨rfl, -, -, rfl⟩ := card_passesOver h
    obtain ⟨arg, harg, hgives⟩ := hgives
    obtain rfl := List.mem_singleton.mp harg
    exact absurd (Argument.eq_of_gives_named hgives) (by decide)

theorem card_mounted : (card.calleeAssigns (.holding 2 [("user", user 1 36)]) ⟨"card", [], []⟩
    none).run.run 5 = (.ok ⟨{ fields := cardNode.assigns }, none⟩, 5) := rfl

/-- The call of a card with a title, and with whatever else there is. -/
def spreadCard : ComponentPlan :=
  { card with
    attributes :=
      [.named "title" (.name "a" ⟨13, 14⟩) ((Expr.name "a" ⟨13, 14⟩).reads rootNames) ⟨6, 15⟩,
        .spread (.name "s" ⟨18, 19⟩) ((Expr.name "s" ⟨18, 19⟩).reads rootNames) ⟨16, 20⟩] }

/-- When the spread gave the title before and gives none now, the title of the spread is kept. -/
example : ((spreadCard.calleeAssigns { Frame.holding 2 [("a", .text "A"), ("s", .record 1 .plain [])]
      with changed := some [("s", .parts [("title", .whole)])] } ⟨"card", [], []⟩
    (some { cardNode with assigns := [("title", .text "X")] })).run.run 5).1 =
      .ok ⟨{ fields := [("title", .text "X")] }, some []⟩ := rfl

example : ((spreadCard.calleeAssigns { Frame.holding 2 [("a", .text "A"), ("s", .record 1 .plain [])]
      with changed := some [("s", .parts [("title", .whole)])] } ⟨"card", [], []⟩ none).run.run 5).1 =
      .ok ⟨{ fields := [("title", .text "A")] }, none⟩ := rfl

end ComponentPlan

end LiveTemplate
