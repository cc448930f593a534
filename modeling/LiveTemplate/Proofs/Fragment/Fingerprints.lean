import LiveTemplate.Proofs.Fragment.Quoting
import LiveTemplate.Proofs.Result
import LiveTemplate.Template
import Mathlib.Data.List.Forall2
import Mathlib.Tactic.SplitIfs

/-!
What equal fingerprints tell. Every fragment of a compiled template, however deep it is nested, is
stamped with the digest of its statics and of the kind and the source of each of its plans. Where the
digest tells texts apart, fragments with equal fingerprints agree in these; nothing is said about
their roots, nor about what a plan reads.
-/

namespace LiveTemplate

set_option autoImplicit false

mutual

/-- A fragment and the fragments inside it. -/
def Fragment.all : Fragment → List Fragment
  | ⟨statics, plans, fingerprint, root, reads⟩ =>
    ⟨statics, plans, fingerprint, root, reads⟩ :: Plan.allFragments plans

def Plan.fragments : Plan → List Fragment
  | .conditional branches _ _ => BranchPlan.allFragments branches
  | .comprehension _ body _ _ => Fragment.all body
  | .component ⟨_, _, _, slots, _, _, _⟩ => SlotPlan.allFragments slots
  | _ => []

def Plan.allFragments : List Plan → List Fragment
  | [] => []
  | plan :: rest => Plan.fragments plan ++ Plan.allFragments rest

def BranchPlan.allFragments : List BranchPlan → List Fragment
  | [] => []
  | ⟨_, body⟩ :: rest => Fragment.all body ++ BranchPlan.allFragments rest

def SlotPlan.allFragments : List SlotPlan → List Fragment
  | [] => []
  | ⟨_, _, _, some body, _, _⟩ :: rest => Fragment.all body ++ SlotPlan.allFragments rest
  | ⟨_, _, _, none, _, _⟩ :: rest => SlotPlan.allFragments rest

end

theorem Fragment.self_mem_all (f : Fragment) : f ∈ f.all := by
  obtain ⟨statics, plans, fingerprint, root, reads⟩ := f
  rw [Fragment.all]
  exact List.mem_cons_self

theorem Plan.mem_allFragments {f : Fragment} {plans : List Plan} :
    f ∈ Plan.allFragments plans ↔ ∃ plan ∈ plans, f ∈ plan.fragments := by
  induction plans with
  | nil => simp [Plan.allFragments]
  | cons plan rest ih => simp [Plan.allFragments, ih]

theorem BranchPlan.mem_allFragments {f : Fragment} {branches : List BranchPlan} :
    f ∈ BranchPlan.allFragments branches ↔ ∃ branch ∈ branches, f ∈ branch.body.all := by
  induction branches with
  | nil => simp [BranchPlan.allFragments]
  | cons branch rest ih =>
    obtain ⟨condition, body⟩ := branch
    simp [BranchPlan.allFragments, ih]

theorem SlotPlan.mem_allFragments {f : Fragment} {slots : List SlotPlan} :
    f ∈ SlotPlan.allFragments slots ↔ ∃ slot ∈ slots, ∃ body ∈ slot.body, f ∈ body.all := by
  induction slots with
  | nil => simp [SlotPlan.allFragments]
  | cons slot rest ih =>
    obtain ⟨name, pattern, attributes, body, reads, span⟩ := slot
    cases body <;> simp [SlotPlan.allFragments, ih]

/-- The kind and the source of each plan of a fragment. -/
def Fragment.partTexts (source : Source) (f : Fragment) : List (String × String) :=
  f.plans.map fun p => (p.shape, source.slice p.span)

def Fragment.Stamped (source : Source) (f : Fragment) : Prop :=
  f.fingerprint = Fingerprint.of f.statics (f.partTexts source)

def Piece.fragments : Piece → List Fragment
  | text _ => []
  | hole plan => plan.fragments

def Piece.Stamped (source : Source) (ps : List Piece) : Prop :=
  ∀ p ∈ ps, ∀ f ∈ p.fragments, f.Stamped source

section Stamps

variable {source : Source} {ps qs : List Piece}

theorem Piece.Stamped.append (hp : Piece.Stamped source ps) (hq : Piece.Stamped source qs) :
    Piece.Stamped source (ps ++ qs) := List.forall_mem_append.2 ⟨hp, hq⟩

theorem Piece.Stamped.text (s : String) : Piece.Stamped source [.text s] := by
  simp [Stamped, fragments]

theorem Piece.Stamped.hole {plan : Plan} (h : ∀ f ∈ plan.fragments, f.Stamped source) :
    Piece.Stamped source [.hole plan] := by
  simpa [Stamped, fragments] using h

theorem Plan.allFragments_plans (ps : List Piece) :
    Plan.allFragments (Piece.plans ps) = ps.flatMap Piece.fragments := by
  induction ps with
  | nil => rfl
  | cons p rest ih =>
    rw [List.flatMap_cons, ← ih]
    cases p with
    | text s => rfl
    | hole plan => rfl

theorem SlotPlan.allFragments_append (slots more : List SlotPlan) :
    SlotPlan.allFragments (slots ++ more) =
      SlotPlan.allFragments slots ++ SlotPlan.allFragments more := by
  induction slots with
  | nil => rfl
  | cons slot rest ih =>
    obtain ⟨name, pattern, attributes, body, reads, span⟩ := slot
    cases body with
    | none => simpa [SlotPlan.allFragments] using ih
    | some body => simp [SlotPlan.allFragments, ih]

/-- A fragment built from stamped pieces is stamped throughout. -/
theorem Piece.Stamped.fragment (h : Piece.Stamped source ps) (root trimmed : Bool) :
    ∀ f ∈ (Fragment.ofPieces source ps root trimmed).all, f.Stamped source := by
  intro f hf
  rw [Fragment.ofPieces, Fragment.all, Plan.allFragments_plans] at hf
  rcases List.mem_cons.1 hf with rfl | hf
  · rfl
  · obtain ⟨p, hp, hf⟩ := List.mem_flatMap.1 hf
    exact h p hp f hf

end Stamps

section Nodes

variable (ctx : Fragment.Context)

/-- The plans of attributes hold no fragments. -/
theorem attributePieces_fragments (locals : List String) (a : ElementAttribute) :
    ∀ p ∈ Fragment.attributePieces ctx locals a, p.fragments = [] := by
  have hparts : ∀ name parts, ∀ p ∈ Fragment.templatePieces ctx locals name parts,
      p.fragments = [] := by
    intro name parts
    induction parts with
    | nil => simp [Fragment.templatePieces]
    | cons part rest ih => simpa [Fragment.templatePieces, Piece.fragments, Plan.fragments] using ih
  unfold Fragment.attributePieces
  split
  case h_5 name head parts _ _ =>
    intro p hp
    simp only [Fragment.quotedText, List.cons_append, List.mem_cons, List.mem_append,
      List.not_mem_nil, or_false] at hp
    rcases hp with rfl | rfl | hp | rfl
    · rfl
    · rfl
    · exact hparts name parts p hp
    · rfl
  case h_6 =>
    dsimp only
    split_ifs <;> simp [Fragment.quotedText, Piece.fragments, Plan.fragments]
  all_goals simp [Piece.fragments, Plan.fragments]

mutual

theorem pieces_stamped : ∀ (node : Node) (locals : List String),
    Piece.Stamped ctx.source (Fragment.pieces ctx locals node)
  | .text content span, locals => by
    rw [Fragment.pieces]
    exact .text content
  | .code value span, locals => by
    rw [Fragment.pieces]
    apply Piece.Stamped.hole
    rw [Fragment.codePlan]
    split <;> simp [Plan.fragments]
  | .element name void attributes children span, locals => by
    have hattributes : Piece.Stamped ctx.source
        (attributes.flatMap (Fragment.attributePieces ctx locals)) := by
      intro p hp f hf
      obtain ⟨a, -, hp⟩ := List.mem_flatMap.1 hp
      rw [attributePieces_fragments ctx locals a p hp] at hf
      cases hf
    have hstart := ((Piece.Stamped.text ("<" ++ name)).append hattributes).append (.text ">")
    have hend := (allPieces_stamped children locals).append (.text ("</" ++ name ++ ">"))
    rw [Fragment.pieces]
    cases void with
    | true => simpa using hstart
    | false => simpa using hstart.append hend
  | .loop header body span, locals => by
    rw [Fragment.pieces]
    apply Piece.Stamped.hole
    rw [Plan.fragments]
    exact (allPieces_stamped body _).fragment _ _
  | .conditional branches span, locals => by
    rw [Fragment.pieces]
    apply Piece.Stamped.hole
    rw [Plan.fragments]
    exact branchPlans_stamped branches locals
  | .component call, locals => by
    rw [Fragment.pieces]
    apply Piece.Stamped.hole
    exact componentPlan_stamped call locals

theorem allPieces_stamped : ∀ (nodes : List Node) (locals : List String),
    Piece.Stamped ctx.source (Fragment.allPieces ctx locals nodes)
  | [], locals => by
    rw [Fragment.allPieces]
    intro f hf
    cases hf
  | node :: rest, locals => by
    rw [Fragment.allPieces]
    exact (pieces_stamped node locals).append (allPieces_stamped rest locals)

theorem branchPlans_stamped : ∀ (branches : List Branch) (locals : List String),
    ∀ f ∈ BranchPlan.allFragments (Fragment.branchPlans ctx locals branches), f.Stamped ctx.source
  | [], locals => by
    rw [Fragment.branchPlans, BranchPlan.allFragments]
    simp
  | ⟨condition, body, span⟩ :: rest, locals => by
    rw [Fragment.branchPlans, BranchPlan.allFragments]
    intro f hf
    rcases List.mem_append.1 hf with hf | hf
    · exact (allPieces_stamped body locals).fragment _ _ f hf
    · exact branchPlans_stamped rest locals f hf

theorem componentPlan_stamped : ∀ (call : ComponentNode) (locals : List String),
    ∀ f ∈ (Plan.component (Fragment.componentPlan ctx locals call)).fragments,
      f.Stamped ctx.source
  | ⟨tag, target, pattern, attributes, slots, body, call, span⟩, locals => by
    unfold Fragment.componentPlan
    dsimp only
    rw [Plan.fragments]
    intro f hf
    rw [SlotPlan.allFragments_append] at hf
    rcases List.mem_append.1 hf with hf | hf
    · cases body with
      | none => cases hf
      | some nodes =>
        dsimp only at hf
        split at hf
        · cases hf
        · rw [SlotPlan.allFragments, SlotPlan.allFragments, List.append_nil] at hf
          exact (allPieces_stamped nodes _).fragment _ _ f hf
    · exact slotPlans_stamped slots locals f hf

theorem slotPlans_stamped : ∀ (slots : List SlotEntry) (locals : List String),
    ∀ f ∈ SlotPlan.allFragments (Fragment.slotPlans ctx locals slots), f.Stamped ctx.source
  | [], locals => by
    rw [Fragment.slotPlans, SlotPlan.allFragments]
    simp
  | ⟨name, pattern, attributes, none, span⟩ :: rest, locals => by
    rw [Fragment.slotPlans, SlotPlan.allFragments]
    exact slotPlans_stamped rest locals
  | ⟨name, pattern, attributes, some nodes, span⟩ :: rest, locals => by
    rw [Fragment.slotPlans, SlotPlan.allFragments]
    intro f hf
    rcases List.mem_append.1 hf with hf | hf
    · exact (allPieces_stamped nodes _).fragment _ _ f hf
    · exact slotPlans_stamped rest locals f hf

end

end Nodes

/-- Fragments with the same statics, and with plans of the same kinds and sources in turn. -/
structure Fragment.Alike (source source' : Source) (f g : Fragment) : Prop where
  statics : f.statics = g.statics
  plans : List.Forall₂ (fun p q => p.shape = q.shape ∧ source.slice p.span = source'.slice q.span)
    f.plans g.plans

theorem Fragment.alike_of_partTexts {source source' : Source} {f g : Fragment}
    (hstatics : f.statics = g.statics) (hparts : f.partTexts source = g.partTexts source') :
    Fragment.Alike source source' f g := by
  refine ⟨hstatics, ?_⟩
  have hforall : List.Forall₂ Eq (f.partTexts source) (g.partTexts source') := by
    rw [hparts]
    exact List.forall₂_refl _
  rw [partTexts, partTexts, List.forall₂_map_left_iff, List.forall₂_map_right_iff] at hforall
  exact hforall.imp fun p q hpq => Prod.mk.inj hpq

/-- Every fragment of a compiled template is stamped. -/
theorem Template.stamped {source : Source} {helpers : Assoc String Value} {unit : Option Nat}
    {trimmed : Bool} {t : Template} (h : Template.ofSource source helpers unit trimmed = .ok t) :
    ∀ f ∈ t.fragment.all, f.Stamped source := by
  obtain ⟨tree, -, h⟩ := bind_eq_ok.1 h
  cases h
  exact (allPieces_stamped ⟨source, Assoc.keys helpers⟩ tree.children []).fragment _ _

def pieced : Source := ⟨"<%= if c %><br><% else %><<%# %>br><% end %>", "pieced"⟩

end LiveTemplate
