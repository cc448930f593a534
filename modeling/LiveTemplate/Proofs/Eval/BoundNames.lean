import LiveTemplate.Eval
import Mathlib.Data.List.Induction

/-!
The names a pattern is said to bind are the ones it binds. They are bound in the order in which they
stand in the pattern, a repeated one in its first place; a binding that fails has bound the first of
them.
-/

namespace LiveTemplate

set_option autoImplicit false

/-! ### Names that are put behind others -/

/-- A name behind others, unless it is among them. -/
def putName (held : List String) (name : String) : List String :=
  if name ∈ held then held else held ++ [name]

theorem prefix_putName (held : List String) (name : String) : held <+: putName held name := by
  rw [putName]
  split
  · exact List.prefix_rfl
  · exact List.prefix_append _ _

theorem prefix_foldl_putName (held names : List String) : held <+: names.foldl putName held := by
  induction names generalizing held with
  | nil => exact List.prefix_rfl
  | cons name rest ih => exact (prefix_putName held name).trans (ih _)

theorem foldl_putName_prefix {first names : List String} (h : first <+: names)
    (held : List String) : first.foldl putName held <+: names.foldl putName held := by
  obtain ⟨rest, rfl⟩ := h
  rw [List.foldl_append]
  exact prefix_foldl_putName _ rest

/-- Names put one by one behind none leave out the repetitions. -/
theorem foldl_putName_nil (names : List String) : names.foldl putName [] = names.eraseDups := by
  induction names using List.reverseRecOn with
  | nil => rfl
  | append_singleton names name ih =>
    rw [List.foldl_append, List.foldl_cons, List.foldl_nil, ih, List.eraseDups_append, putName]
    by_cases h : name ∈ names
    · rw [if_pos (List.mem_eraseDups.mpr h)]
      simp [List.removeAll, h]
    · rw [if_neg (mt List.mem_eraseDups.mp h)]
      simp [List.removeAll, h, List.eraseDups_cons]

theorem keys_set_eq_putName (held : Assoc String Value) (name : String) (v : Value) :
    Assoc.keys (Assoc.set held name v) = putName (Assoc.keys held) name := Assoc.keys_set held name v

/-! ### Bindings -/

/-- What a binding of certain names does to those held: it puts them all behind when it succeeds, and
the first of them when it fails. -/
def PutsNames (names held : List String) : Except EvalError Unit → List String → Prop
  | .ok _, now => now = names.foldl putName held
  | .error _, now => ∃ first, first <+: names ∧ now = first.foldl putName held

/-- A binding of certain names, from whatever layer it starts. -/
def Puts (names : List String) (x : Bind Unit) : Prop :=
  ∀ (layer : Layer) (n : Nat), PutsNames names (Assoc.keys layer.names)
    ((x.run.run layer).run n).1.1 (Assoc.keys ((x.run.run layer).run n).1.2.names)

namespace Puts

variable {names more : List String}

theorem pure : Puts [] (Pure.pure ()) := fun _ _ => rfl

theorem throw (e : EvalError) : Puts names (MonadExcept.throw e : Bind Unit) :=
  fun _ _ => ⟨[], List.nil_prefix, rfl⟩

theorem set (name : String) (v : Value) : Puts [name] (Bind.set name v) :=
  fun layer _ => keys_set_eq_putName layer.names name v

/-- An evaluation in the midst of binding binds nothing. -/
theorem eval {α : Type} {x : Eval α} {f : α → Bind Unit} (hf : ∀ a, Puts names (f a)) :
    Puts names (Bind.ofEval x >>= f) := by
  intro layer n
  change PutsNames names _
    (((ExceptT.bindCont f (x.run.run n).1).run layer).run (x.run.run n).2).1.1
    (Assoc.keys (((ExceptT.bindCont f (x.run.run n).1).run layer).run (x.run.run n).2).1.2.names)
  cases (x.run.run n).1 with
  | ok a => exact hf a layer _
  | error e => exact throw e layer _

theorem get {f : Layer → Bind Unit} (hf : ∀ layer, Puts names (f layer)) :
    Puts names (MonadState.get >>= f) := fun layer n => hf layer layer n

/-- One binding after another. When the second fails, all names of the first are bound. -/
theorem seq {x : Bind Unit} {f : Unit → Bind Unit} (hx : Puts names x) (hf : Puts more (f ())) :
    Puts (names ++ more) (x >>= f) := by
  intro layer n
  have hfirst := hx layer n
  change PutsNames (names ++ more) _
    (((ExceptT.bindCont f ((x.run.run layer).run n).1.1).run ((x.run.run layer).run n).1.2).run
      ((x.run.run layer).run n).2).1.1
    (Assoc.keys (((ExceptT.bindCont f ((x.run.run layer).run n).1.1).run
      ((x.run.run layer).run n).1.2).run ((x.run.run layer).run n).2).1.2.names)
  generalize ((x.run.run layer).run n).2 = m at *
  generalize ((x.run.run layer).run n).1.2 = after at *
  cases hr : ((x.run.run layer).run n).1.1 with
  | error e =>
    rw [hr] at hfirst
    obtain ⟨first, hprefix, hkeys⟩ := hfirst
    exact ⟨first, hprefix.trans (List.prefix_append _ _), hkeys⟩
  | ok u =>
    rw [hr] at hfirst
    have hsecond := hf after m
    rw [show Assoc.keys after.names = names.foldl putName (Assoc.keys layer.names) from hfirst]
      at hsecond
    change PutsNames _ _ (((f ()).run.run after).run m).1.1
      (Assoc.keys (((f ()).run.run after).run m).1.2.names)
    cases hr' : (((f ()).run.run after).run m).1.1 with
    | error e =>
      rw [hr'] at hsecond
      obtain ⟨first, hprefix, hkeys⟩ := hsecond
      refine ⟨names ++ first, (List.prefix_append_right_inj _).mpr hprefix, ?_⟩
      rw [hkeys, List.foldl_append]
    | ok w =>
      rw [hr'] at hsecond
      exact hsecond.trans List.foldl_append.symm

end Puts

variable (call : Call) (scope : Scope)

mutual

theorem Pattern.puts : ∀ (p : Pattern) (v : Value), Puts p.boundNames (p.bind call scope v)
  | .name n _, v => Puts.set n v
  | .fallback target default _, v => by
    unfold Pattern.bind
    split
    · exact Puts.get fun layer => Puts.eval fun v => Pattern.puts target v
    · exact Pattern.puts target _
  | .array elements span, v => by
    rw [Pattern.bind]
    split
    · exact Puts.eval fun items => Pattern.elements_put elements items
    · exact Puts.throw _
  | .object properties span, v => by
    rw [Pattern.bind]
    split
    · exact Pattern.properties_put properties v
    · exact Puts.throw _

theorem Pattern.elements_put : ∀ (elements : List (Option Pattern)) (items : List Value),
    Puts (Pattern.elementNames elements) (Pattern.bindItems call scope elements items)
  | [], _ => Puts.pure
  | none :: rest, items => Pattern.elements_put rest items.tail
  | some p :: rest, items =>
    Puts.seq (Pattern.puts p (items.headD .undefined)) (Pattern.elements_put rest items.tail)

theorem Pattern.properties_put : ∀ (properties : List (String × Pattern)) (v : Value),
    Puts (Pattern.propertyNames properties) (Pattern.bindFields call scope properties v)
  | [], _ => Puts.pure
  | (_, p) :: rest, v =>
    Puts.eval fun field => Puts.seq (Pattern.puts p field) (Pattern.properties_put rest v)

end

/-- A pattern that is bound where no name was bound yet leaves the names it is said to bind, without
repetitions. When it fails, the names bound by then are the first of them. -/
theorem Pattern.bind_names (p : Pattern) (v : Value) (id : Option Identity) (n : Nat) :
    match ((p.bind call scope v).run.run ⟨id, []⟩).run n with
    | ((.ok _, layer), _) => Assoc.keys layer.names = p.boundNames.eraseDups
    | ((.error _, layer), _) => Assoc.keys layer.names <+: p.boundNames.eraseDups := by
  have h := Pattern.puts call scope p v ⟨id, []⟩ n
  split <;> rename_i hrun <;> rw [hrun] at h
  · rw [← foldl_putName_nil]
    exact h
  · obtain ⟨first, hprefix, hkeys⟩ := h
    rw [← foldl_putName_nil, hkeys]
    exact foldl_putName_prefix hprefix []

end LiveTemplate
