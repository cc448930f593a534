import LiveTemplate.Proofs.Expr.Unaffected
import LiveTemplate.Proofs.Fragment.Fingerprints
import LiveTemplate.Proofs.Node.Phrases
import LiveTemplate.Proofs.Page.Faithful

/-!
The reads of plans. What a compiled plan is said to read covers all that drawing it looks up: if no
change affects its reads, a plan is confined to what is left unchanged and to the names that its loops
bind themselves.
-/

namespace LiveTemplate

set_option autoImplicit false

/-! ### Confined plans -/

section
variable (granted : String → List String → Prop)

mutual

/-- All lookups of a plan are of known names or along granted paths. The patterns of its loops make no
functions, and it mounts nothing. -/
def Plan.Confined (known : List String) : Plan → Prop
  | .body e _ _ | .attribute _ _ e _ _ | .spread e _ _ => e.Confined granted known
  | .slot _ _ _ _ => False
  | .conditional branches _ _ => BranchPlan.AllConfined known branches
  | .comprehension header ⟨_, plans, _, _, _⟩ _ _ =>
    header.items.Confined granted known ∧ header.pattern.Confined granted known ∧
      header.pattern.makesFunction = false ∧
        Plan.AllConfined (known ++ header.pattern.boundNames) plans
  | .component _ => False

def Plan.AllConfined (known : List String) : List Plan → Prop
  | [] => True
  | plan :: rest => Plan.Confined known plan ∧ Plan.AllConfined known rest

def BranchPlan.AllConfined (known : List String) : List BranchPlan → Prop
  | [] => True
  | ⟨condition, ⟨_, plans, _, _, _⟩⟩ :: rest =>
    (∀ e, condition = some e → e.Confined granted known) ∧ Plan.AllConfined known plans ∧
      BranchPlan.AllConfined known rest

end

end

/-! ### Tracked plans -/

/-- The names that a phrase looks up and the fields it reads by name have no separator in them, and
the pattern of a loop makes no function. -/
def Phrase.Traceable : Phrase → Prop
  | .expr e => ∀ s ∈ e.spelled, Unseparated s
  | .pattern p => ∀ s ∈ p.spelled, Unseparated s
  | .header h => (∀ s ∈ h.items.spelled, Unseparated s) ∧ (∀ s ∈ h.pattern.spelled, Unseparated s) ∧
      h.pattern.makesFunction = false

instance : DecidablePred Phrase.Traceable
  | .expr e => inferInstanceAs (Decidable (∀ s ∈ e.spelled, Unseparated s))
  | .pattern p => inferInstanceAs (Decidable (∀ s ∈ p.spelled, Unseparated s))
  | .header h => inferInstanceAs (Decidable ((∀ s ∈ h.items.spelled, Unseparated s) ∧
      (∀ s ∈ h.pattern.spelled, Unseparated s) ∧ h.pattern.makesFunction = false))

def AllTraceable (ps : List Phrase) : Prop := ∀ p ∈ ps, p.Traceable

instance (ps : List Phrase) : Decidable (AllTraceable ps) :=
  inferInstanceAs (Decidable (∀ p ∈ ps, p.Traceable))

mutual

/-- A plan whose reads are those of its parts, where some names are local. -/
def Plan.Tracked (scope : NameScope) : Plan → Prop
  | .body e reads _ | .attribute _ _ e reads _ | .spread e reads _ =>
    (Phrase.expr e).Traceable ∧ reads = e.reads scope
  | .slot _ _ _ _ => False
  | .conditional branches reads _ =>
    BranchPlan.AllTracked scope branches ∧ reads = Reads.mergeAll
      (Expr.listReads scope (branches.filterMap BranchPlan.condition) ::
        branches.map fun b => b.body.reads)
  | .comprehension header body reads _ =>
    (Phrase.header header).Traceable ∧
      Fragment.Tracked (scope.bind header.pattern.boundNames) body ∧
      reads = Reads.mergeAll [header.items.reads scope, header.pattern.reads scope,
        body.reads.without header.pattern.boundNames]
  | .component _ => False

/-- So is a fragment, which has as many dynamics as fit between its statics. -/
def Fragment.Tracked (scope : NameScope) : Fragment → Prop
  | ⟨statics, plans, _, _, reads⟩ =>
    statics.length = plans.length + 1 ∧ Plan.AllTracked scope plans ∧
      reads = Reads.mergeAll (plans.map Plan.reads)

def Plan.AllTracked (scope : NameScope) : List Plan → Prop
  | [] => True
  | plan :: rest => Plan.Tracked scope plan ∧ Plan.AllTracked scope rest

def BranchPlan.AllTracked (scope : NameScope) : List BranchPlan → Prop
  | [] => True
  | ⟨condition, body⟩ :: rest =>
    (∀ e, condition = some e → (Phrase.expr e).Traceable) ∧ Fragment.Tracked scope body ∧
      BranchPlan.AllTracked scope rest

end

/-! ### What reads that no change affects leave to a plan -/

section Guards
variable {scope : NameScope} {changed : ChangedSet}

/-- The conditions of tracked branches. -/
theorem BranchPlan.traceable_conditions {branches : List BranchPlan}
    (h : BranchPlan.AllTracked scope branches) :
    ∀ s ∈ Expr.listSpelled (branches.filterMap condition), Unseparated s := by
  induction branches with
  | nil => exact fun _ hs => absurd hs List.not_mem_nil
  | cons b rest ih =>
    obtain ⟨condition, body⟩ := b
    rw [BranchPlan.AllTracked] at h
    cases condition with
    | none => exact ih h.2.2
    | some e =>
      change ∀ s ∈ Expr.listSpelled (e :: rest.filterMap BranchPlan.condition), Unseparated s
      rw [Expr.listSpelled, List.forall_mem_append]
      exact ⟨h.1 e rfl, ih h.2.2⟩

set_option linter.unusedSectionVars false in
mutual

/-- A tracked plan whose reads no change affects is confined to what is granted. -/
theorem guards_plan {inner : NameScope} (h : scope.Within inner) (known : List String) :
    ∀ p : Plan, p.Tracked inner →
      p.reads.Guards changed known (p.Confined (scope.Grants changed) known)
  | .body e reads span, ht => by
    rw [Plan.Tracked] at ht
    rw [Plan.Confined, Plan.reads, ht.2]
    exact guards_expr h known e ht.1
  | .attribute name form e reads span, ht => by
    rw [Plan.Tracked] at ht
    rw [Plan.Confined, Plan.reads, ht.2]
    exact guards_expr h known e ht.1
  | .spread e reads span, ht => by
    rw [Plan.Tracked] at ht
    rw [Plan.Confined, Plan.reads, ht.2]
    exact guards_expr h known e ht.1
  | .slot _ _ _ _, ht => by
    rw [Plan.Tracked] at ht
    exact ht.elim
  | .conditional branches reads span, ht => by
    rw [Plan.Tracked] at ht
    obtain ⟨hbranches, rfl⟩ := ht
    rw [Plan.Confined, Plan.reads, Reads.mergeAll, List.foldl_cons]
    have hempty : Reads.empty.Guards changed known True := .empty trivial
    have hconditions := hempty.merge
      (guards_list h known _ (BranchPlan.traceable_conditions hbranches))
    exact (guards_branches h known branches hbranches hconditions).imp fun hc => hc.2 hc.1.2
  | .comprehension header ⟨statics, plans, fingerprint, root, inside⟩ reads span, ht => by
    rw [Plan.Tracked, Fragment.Tracked] at ht
    obtain ⟨⟨hitems, hpattern, hfunction⟩, ⟨-, hplans, rfl⟩, rfl⟩ := ht
    rw [Plan.Confined, Plan.reads]
    have hbody : (Reads.mergeAll (plans.map Plan.reads)).Guards changed
        (known ++ header.pattern.boundNames) (Plan.AllConfined (scope.Grants changed)
          (known ++ header.pattern.boundNames) plans) :=
      (guards_plans (h.bind header.pattern.boundNames) _ plans hplans (.empty trivial)).imp And.right
    have hall := (((Reads.Guards.empty trivial).merge (guards_expr h known header.items hitems)).merge
      (guards_pattern h known header.pattern hpattern)).merge (hbody.without fun _ hx => hx)
    exact hall.imp fun hc => ⟨hc.1.1.2, hc.1.2, hfunction, hc.2⟩
  | .component _, ht => by
    rw [Plan.Tracked] at ht
    exact ht.elim

/-- So are tracked plans whose reads are merged behind others. -/
theorem guards_plans {inner : NameScope} (h : scope.Within inner) (known : List String) :
    ∀ plans : List Plan, Plan.AllTracked inner plans → ∀ {start : Reads} {P : Prop},
      start.Guards changed known P → ((plans.map Plan.reads).foldl Reads.merge start).Guards changed
        known (P ∧ Plan.AllConfined (scope.Grants changed) known plans)
  | [], _, _, _, hstart => hstart.imp fun hP => ⟨hP, trivial⟩
  | p :: rest, ht, _, _, hstart => by
    rw [Plan.AllTracked] at ht
    rw [Plan.AllConfined]
    exact (guards_plans h known rest ht.2 (hstart.merge (guards_plan h known p ht.1))).imp and_assoc.mp

/-- So are tracked branches, as long as their conditions are. -/
theorem guards_branches {inner : NameScope} (h : scope.Within inner) (known : List String) :
    ∀ branches : List BranchPlan, BranchPlan.AllTracked inner branches →
      ∀ {start : Reads} {P : Prop}, start.Guards changed known P →
        ((branches.map fun b => b.body.reads).foldl Reads.merge start).Guards changed known
          (P ∧ (Expr.ListConfined (scope.Grants changed) known
            (branches.filterMap BranchPlan.condition) →
              BranchPlan.AllConfined (scope.Grants changed) known branches))
  | [], _, _, _, hstart => hstart.imp fun hP => ⟨hP, fun _ => trivial⟩
  | ⟨condition, ⟨statics, plans, fingerprint, root, inside⟩⟩ :: rest, ht, _, _, hstart => by
    rw [BranchPlan.AllTracked, Fragment.Tracked] at ht
    obtain ⟨-, ⟨-, hplans, rfl⟩, hrest⟩ := ht
    have hbody := guards_plans h known plans hplans (Reads.Guards.empty trivial)
    refine (guards_branches h known rest hrest (hstart.merge hbody)).imp fun hc => ?_
    refine ⟨hc.1.1, fun hconditions => ?_⟩
    rw [BranchPlan.AllConfined]
    cases condition with
    | none => exact ⟨nofun, hc.1.2.2, hc.2 hconditions⟩
    | some e =>
      change Expr.ListConfined _ _ (e :: rest.filterMap BranchPlan.condition) at hconditions
      rw [Expr.ListConfined] at hconditions
      refine ⟨?_, hc.1.2.2, hc.2 hconditions.2⟩
      rintro _ ⟨⟩
      exact hconditions.1

end

/-- A tracked plan that no change affects is confined to what is granted where it stands. -/
theorem Plan.confined_of_unaffected {p : Plan} (ht : p.Tracked scope)
    (h : p.reads.isAffected (some changed) = false) : p.Confined (scope.Grants changed) [] :=
  (guards_plan ⟨fun _ hx => hx, rfl⟩ [] p ht).holds (Reads.isAffected_eq_false_iff.mp h)

end Guards

/-! ### Plans of nodes -/

theorem length_trimLast (texts : List String) : (trimLast texts).length = texts.length := by
  induction texts with
  | nil => rfl
  | cons s rest ih =>
    cases rest with
    | nil => rfl
    | cons t more =>
      rw [trimLast, List.length_cons, ih]
      · rfl
      · exact List.cons_ne_nil t more

theorem length_trimEnds (texts : List String) : (trimEnds texts).length = texts.length := by
  cases texts with
  | nil => rfl
  | cons s rest => rw [trimEnds, length_trimLast, List.length_cons, List.length_cons]

/-- Pieces whose plans are tracked. -/
def Piece.Tracked (scope : NameScope) (ps : List Piece) : Prop := Plan.AllTracked scope (Piece.plans ps)

section Pieces
variable {scope : NameScope} {ps qs : List Piece}

theorem Plan.allTracked_append {plans more : List Plan} (h : Plan.AllTracked scope plans)
    (h' : Plan.AllTracked scope more) : Plan.AllTracked scope (plans ++ more) := by
  induction plans with
  | nil => exact h'
  | cons p rest ih =>
    rw [Plan.AllTracked] at h
    rw [List.cons_append, Plan.AllTracked]
    exact ⟨h.1, ih h.2⟩

namespace Piece.Tracked

theorem nil : Piece.Tracked scope [] := trivial

theorem append (h : Piece.Tracked scope ps) (h' : Piece.Tracked scope qs) :
    Piece.Tracked scope (ps ++ qs) := by
  rw [Piece.Tracked, Piece.plans_append]
  exact Plan.allTracked_append h h'

theorem text (s : String) : Piece.Tracked scope [.text s] := trivial

theorem hole {plan : Plan} (h : plan.Tracked scope) : Piece.Tracked scope [.hole plan] :=
  ⟨h, trivial⟩

/-- A fragment of tracked pieces is tracked, whether or not blanks at its ends are dropped. -/
theorem fragment (h : Piece.Tracked scope ps) (source : Source) (root trimmed : Bool) :
    (Fragment.ofPieces source ps root trimmed).Tracked scope := by
  rw [Fragment.ofPieces, Fragment.Tracked]
  refine ⟨?_, h, rfl⟩
  cases trimmed with
  | false => exact Piece.length_statics ps
  | true => exact (length_trimEnds _).trans (Piece.length_statics ps)

end Piece.Tracked

end Pieces

section Nodes
variable (ctx : Fragment.Context)

theorem templatePieces_tracked (locals : List String) (name : String) {parts : List (Expr × String)}
    (h : ∀ s ∈ Expr.partsSpelled parts, Unseparated s) :
    Piece.Tracked (ctx.scope locals) (Fragment.templatePieces ctx locals name parts) := by
  induction parts with
  | nil => exact .nil
  | cons part rest ih =>
    rw [Expr.partsSpelled, List.forall_mem_append] at h
    have hfirst : Piece.Tracked (ctx.scope locals)
        [.hole (.attribute name .value part.1 (part.1.reads (ctx.scope locals)) part.1.span)] :=
      .hole ⟨h.1, rfl⟩
    exact hfirst.append (ih h.2)

theorem attributePieces_tracked (locals : List String) {a : ElementAttribute}
    (h : AllTraceable a.phrases) :
    Piece.Tracked (ctx.scope locals) (Fragment.attributePieces ctx locals a) := by
  have hplan : ∀ {name : String} {form : AttributeForm} {value : Expr} {span : Span},
      (Phrase.expr value).Traceable → Piece.Tracked (ctx.scope locals)
        [.hole (.attribute name form value (value.reads (ctx.scope locals)) span)] :=
    fun hvalue => .hole ⟨hvalue, rfl⟩
  unfold Fragment.attributePieces
  split
  · trivial
  · trivial
  · trivial
  · exact .hole ⟨h _ List.mem_cons_self, rfl⟩
  · rename_i name head parts span place
    have hparts := h _ List.mem_cons_self
    rw [Phrase.Traceable, Expr.spelled] at hparts
    exact (templatePieces_tracked ctx locals name hparts).append (.text _)
  · rename_i name value span _
    have hvalue : (Phrase.expr value).Traceable := h _ List.mem_cons_self
    dsimp only
    split_ifs
    · exact (hplan hvalue).append (.text _)
    · exact (hplan hvalue).append (.text _)
    · exact hplan hvalue

theorem attributes_tracked (locals : List String) {attributes : List ElementAttribute}
    (h : AllTraceable (attributes.flatMap ElementAttribute.phrases)) :
    Piece.Tracked (ctx.scope locals)
      (attributes.flatMap (Fragment.attributePieces ctx locals)) := by
  induction attributes with
  | nil => exact .nil
  | cons a rest ih =>
    rw [List.flatMap_cons, AllTraceable, List.forall_mem_append] at h
    rw [List.flatMap_cons]
    exact (attributePieces_tracked ctx locals h.1).append (ih h.2)

mutual

theorem pieces_tracked : ∀ (node : Node) (locals : List String), node.isPlain = true →
    AllTraceable node.phrases →
      Piece.Tracked (ctx.scope locals) (Fragment.pieces ctx locals node)
  | .text content span, locals, _, _ => by
    rw [Fragment.pieces]
    exact .text content
  | .code value span, locals, hplain, h => by
    rw [Fragment.pieces, Fragment.codePlan, slotCall?_eq_none hplain]
    exact .hole ⟨h _ List.mem_cons_self, rfl⟩
  | .element name void attributes children span, locals, hplain, h => by
    rw [Node.phrases, AllTraceable, List.forall_mem_append] at h
    rw [Fragment.pieces]
    have hattributes := attributes_tracked ctx locals h.1
    cases void with
    | true => exact hattributes.append (.text ">")
    | false =>
      have hchildren := allPieces_tracked children locals hplain h.2
      exact hattributes.append (hchildren.append (.text _))
  | .loop header body span, locals, hplain, h => by
    rw [Node.phrases, AllTraceable, List.forall_mem_cons] at h
    rw [Fragment.pieces]
    refine .hole ?_
    rw [Plan.Tracked]
    have hbody := allPieces_tracked body (locals ++ header.pattern.boundNames) hplain h.2
    exact ⟨h.1, hbody.fragment ctx.source (Node.isRoot body) false, rfl⟩
  | .conditional branches span, locals, hplain, h => by
    rw [Node.phrases] at h
    rw [Fragment.pieces]
    refine .hole ?_
    rw [Plan.Tracked]
    exact ⟨branchPlans_tracked branches locals hplain h, rfl⟩
  | .component call, locals, hplain, _ => by
    rw [Node.isPlain] at hplain
    cases hplain

theorem allPieces_tracked : ∀ (nodes : List Node) (locals : List String),
    Node.allPlain nodes = true → AllTraceable (Node.allPhrases nodes) →
      Piece.Tracked (ctx.scope locals) (Fragment.allPieces ctx locals nodes)
  | [], locals, _, _ => by
    rw [Fragment.allPieces]
    exact .nil
  | node :: rest, locals, hplain, h => by
    rw [Node.allPlain, Bool.and_eq_true] at hplain
    rw [Node.allPhrases, AllTraceable, List.forall_mem_append] at h
    rw [Fragment.allPieces]
    exact (pieces_tracked node locals hplain.1 h.1).append
      (allPieces_tracked rest locals hplain.2 h.2)

theorem branchPlans_tracked : ∀ (branches : List Branch) (locals : List String),
    Branch.allPlain branches = true → AllTraceable (Node.branchPhrases branches) →
      BranchPlan.AllTracked (ctx.scope locals) (Fragment.branchPlans ctx locals branches)
  | [], locals, _, _ => by
    rw [Fragment.branchPlans]
    trivial
  | ⟨condition, body, span⟩ :: rest, locals, hplain, h => by
    rw [Branch.allPlain, Bool.and_eq_true] at hplain
    rw [Node.branchPhrases, AllTraceable, List.forall_mem_append, List.forall_mem_append] at h
    rw [Fragment.branchPlans, BranchPlan.AllTracked]
    have hbody := allPieces_tracked body locals hplain.1 h.1.2
    refine ⟨?_, hbody.fragment ctx.source (Node.isRoot body) false,
      branchPlans_tracked rest locals hplain.2 h.2⟩
    rintro e rfl
    exact h.1.1 _ List.mem_cons_self

end

end Nodes

/-- The fragment of a compiled template without components and slots is tracked. -/
theorem Template.tracked {source : Source} {helpers : Assoc String Value} {unit : Option Nat}
    {trimmed : Bool} {t : Template} (h : Template.ofSource source helpers unit trimmed = .ok t)
    {tree : NodeTree} (htree : NodeTree.ofSource source = .ok tree)
    (hplain : Node.allPlain tree.children = true) (htraceable : AllTraceable tree.phrases) :
    t.fragment.Tracked ⟨[], Assoc.keys t.helpers⟩ := by
  obtain ⟨tree', htree', hcompiled⟩ := bind_eq_ok.1 h
  obtain rfl : tree' = tree := Except.ok.inj (htree'.symm.trans htree)
  cases hcompiled
  exact (allPieces_tracked ⟨source, Assoc.keys helpers⟩ tree'.children [] hplain htraceable).fragment
    source tree'.root trimmed

end LiveTemplate
