import LiveTemplate.Proofs.Snapshot.Page
import LiveTemplate.Proofs.Tree.Parts

/-!
Skeletons. The skeleton of a snapshot has its statics alone: the texts in its holes are left out.
Where no hole shows an angle bracket, the page of a snapshot has the brackets of its skeleton.
-/

namespace LiveTemplate

set_option autoImplicit false

mutual

/-- A dynamic without the texts in it. -/
def Dynamic.skeleton : Dynamic → Dynamic
  | ⟨id, content⟩ => ⟨id, Content.skeleton content⟩

def Content.skeleton : Content → Content
  | .text _ => .text ""
  | .component cid => .component cid
  | .nested tree => .nested (Tree.skeleton tree)
  | .list trees => .list (Tree.allSkeletons trees)
  | .rows fingerprint statics rows => .rows fingerprint statics (Row.allSkeletons rows)

def Row.skeleton : Row → Row
  | ⟨id, dynamics⟩ => ⟨id, Dynamic.allSkeletons dynamics⟩

/-- A tree with its statics alone. -/
def Tree.skeleton : Tree → Tree
  | ⟨id, statics, dynamics, fingerprint, root⟩ =>
    ⟨id, statics, Dynamic.allSkeletons dynamics, fingerprint, root⟩

def Dynamic.allSkeletons : List Dynamic → List Dynamic
  | [] => []
  | d :: rest => Dynamic.skeleton d :: Dynamic.allSkeletons rest

def Row.allSkeletons : List Row → List Row
  | [] => []
  | r :: rest => Row.skeleton r :: Row.allSkeletons rest

def Tree.allSkeletons : List Tree → List Tree
  | [] => []
  | t :: rest => Tree.skeleton t :: Tree.allSkeletons rest

end

namespace Snapshot

def skeleton (s : Snapshot) : Snapshot :=
  ⟨s.root.skeleton, s.components.map fun c => { c with tree := c.tree.skeleton }⟩

end Snapshot

/-! ### Brackets -/

/-- The angle brackets of a text, in turn. -/
def brackets (s : String) : List Char := s.toList.filter fun c => c = '<' ∨ c = '>'

theorem brackets_append (s t : String) : brackets (s ++ t) = brackets s ++ brackets t := by
  rw [brackets, String.toList_append, List.filter_append]
  rfl

theorem brackets_join (texts : List String) :
    brackets (String.join texts) = texts.flatMap brackets := by
  induction texts with
  | nil => rfl
  | cons s rest ih => rw [String.join_cons, brackets_append, ih, List.flatMap_cons]

theorem brackets_eq_nil {s : String} (hlt : '<' ∉ s.toList) (hgt : '>' ∉ s.toList) :
    brackets s = [] := by
  apply List.filter_eq_nil_iff.mpr
  intro c hc
  simp only [decide_eq_true_eq, not_or]
  constructor
  · rintro rfl
    exact hlt hc
  · rintro rfl
    exact hgt hc

/-- Texts with the same brackets have them between the same statics too. -/
theorem brackets_interleave {statics texts others : List String}
    (h : texts.map brackets = others.map brackets) :
    brackets (interleave statics texts) = brackets (interleave statics others) := by
  induction statics generalizing texts others with
  | nil => rw [interleave, interleave, brackets_join, brackets_join, List.flatMap, List.flatMap, h]
  | cons s rest ih =>
    cases texts with
    | nil =>
      rw [List.map_nil, eq_comm, List.map_eq_nil_iff] at h
      rw [h]
    | cons t texts =>
      obtain ⟨u, others, rfl, hu, hothers⟩ := List.map_eq_cons_iff.mp h.symm
      rw [interleave, interleave, brackets_append, brackets_append, brackets_append,
        brackets_append, ih hothers.symm, hu]

/-! ### Pages of skeletons -/

/-- A page, if it is one, has the brackets of another. -/
def SameBrackets (x y : Except TreeError String) : Prop :=
  ∀ page, x = .ok page → ∃ other, y = .ok other ∧ brackets page = brackets other

/-- The same of texts, one by one. -/
def AllSameBrackets (x y : Except TreeError (List String)) : Prop :=
  ∀ texts, x = .ok texts → ∃ others, y = .ok others ∧ texts.map brackets = others.map brackets

section Steps
variable {x y : Except TreeError String} {xs ys : Except TreeError (List String)}

theorem AllSameBrackets.nil : AllSameBrackets (.ok []) (.ok []) := by
  intro texts htexts
  cases htexts
  exact ⟨[], rfl, rfl⟩

theorem AllSameBrackets.cons (h : SameBrackets x y) (hs : AllSameBrackets xs ys) :
    AllSameBrackets (do let text ← x; let texts ← xs; .ok (text :: texts))
      (do let text ← y; let texts ← ys; .ok (text :: texts)) := by
  intro all hall
  obtain ⟨text, htext, hall⟩ := bind_eq_ok.1 hall
  obtain ⟨texts, htexts, hall⟩ := bind_eq_ok.1 hall
  cases hall
  obtain ⟨other, hother, hsame⟩ := h text htext
  obtain ⟨others, hothers, hsames⟩ := hs texts htexts
  refine ⟨other :: others, by rw [hother, hothers]; rfl, ?_⟩
  rw [List.map_cons, List.map_cons, hsame, hsames]

theorem AllSameBrackets.map {f : List String → String} (h : AllSameBrackets xs ys)
    (hf : ∀ texts others : List String, texts.map brackets = others.map brackets →
      brackets (f texts) = brackets (f others)) : SameBrackets (f <$> xs) (f <$> ys) := by
  intro page hpage
  obtain ⟨texts, htexts, rfl⟩ := map_eq_ok.1 hpage
  obtain ⟨others, hothers, hsames⟩ := h texts htexts
  exact ⟨f others, by rw [hothers]; rfl, hf texts others hsames⟩

theorem AllSameBrackets.between (h : AllSameBrackets xs ys) (statics : List String) :
    SameBrackets (interleave statics <$> xs) (interleave statics <$> ys) :=
  h.map fun _ _ hsame => brackets_interleave hsame

theorem AllSameBrackets.join (h : AllSameBrackets xs ys) :
    SameBrackets (String.join <$> xs) (String.join <$> ys) :=
  h.map fun texts others hsame => by
    rw [brackets_join, brackets_join, List.flatMap, List.flatMap, hsame]

end Steps

/-- A text in a hole has no angle brackets. -/
def Part.Unbracketed : Part → Prop
  | .dynamic ⟨_, .text s⟩ => brackets s = []
  | _ => True

/-- No text among some parts has angle brackets. -/
abbrev AllUnbracketed (parts : List Part) : Prop := ∀ p ∈ parts, p.Unbracketed

section Trees
variable {f g : Nat → Except TreeError String} (hfg : ∀ cid, SameBrackets (f cid) (g cid))
include hfg

set_option linter.unusedSectionVars false in
mutual

theorem Dynamic.html_skeleton : ∀ d : Dynamic, AllUnbracketed d.parts →
    SameBrackets (d.htmlWith f) (d.skeleton.htmlWith g)
  | ⟨id, content⟩, h => by
    rw [Dynamic.skeleton, Dynamic.htmlWith, Dynamic.htmlWith]
    rw [Dynamic.parts, AllUnbracketed, List.forall_mem_cons] at h
    refine Content.html_skeleton content (fun s hs => ?_) h.2
    rw [hs] at h
    exact h.1

theorem Content.html_skeleton : ∀ c : Content, (∀ s, c = .text s → brackets s = []) →
    AllUnbracketed c.parts → SameBrackets (c.htmlWith f) (c.skeleton.htmlWith g)
  | .text s, htext, _ => by
    intro page hpage
    rw [Content.htmlWith] at hpage
    cases hpage
    exact ⟨"", by rw [Content.skeleton, Content.htmlWith], htext s rfl⟩
  | .component cid, _, _ => by
    rw [Content.skeleton, Content.htmlWith, Content.htmlWith]
    exact hfg cid
  | .nested tree, _, h => by
    rw [Content.skeleton, Content.htmlWith, Content.htmlWith]
    rw [Content.parts] at h
    exact Tree.html_skeleton tree h
  | .list trees, _, h => by
    rw [Content.skeleton, Content.htmlWith, Content.htmlWith]
    rw [Content.parts] at h
    exact (Tree.html_skeletons trees h).join
  | .rows fingerprint statics rows, _, h => by
    rw [Content.skeleton, Content.htmlWith, Content.htmlWith]
    rw [Content.parts, AllUnbracketed, List.forall_mem_cons] at h
    exact (Row.html_skeletons statics rows h.2).join

theorem Tree.html_skeleton : ∀ t : Tree, AllUnbracketed t.parts →
    SameBrackets (t.htmlWith f) (t.skeleton.htmlWith g)
  | ⟨id, statics, dynamics, fingerprint, root⟩, h => by
    rw [Tree.skeleton, Tree.htmlWith, Tree.htmlWith]
    rw [Tree.parts, AllUnbracketed, List.forall_mem_cons] at h
    exact (Dynamic.html_skeletons dynamics h.2).between statics

theorem Dynamic.html_skeletons : ∀ ds : List Dynamic, AllUnbracketed (Dynamic.allParts ds) →
    AllSameBrackets (Dynamic.allHtmlWith f ds) (Dynamic.allHtmlWith g (Dynamic.allSkeletons ds))
  | [], _ => by
    rw [Dynamic.allSkeletons, Dynamic.allHtmlWith, Dynamic.allHtmlWith]
    exact .nil
  | d :: rest, h => by
    rw [Dynamic.allSkeletons, Dynamic.allHtmlWith, Dynamic.allHtmlWith]
    rw [Dynamic.allParts, AllUnbracketed, List.forall_mem_append] at h
    exact .cons (Dynamic.html_skeleton d h.1) (Dynamic.html_skeletons rest h.2)

theorem Tree.html_skeletons : ∀ ts : List Tree, AllUnbracketed (Tree.allParts ts) →
    AllSameBrackets (Tree.allHtmlWith f ts) (Tree.allHtmlWith g (Tree.allSkeletons ts))
  | [], _ => by
    rw [Tree.allSkeletons, Tree.allHtmlWith, Tree.allHtmlWith]
    exact .nil
  | t :: rest, h => by
    rw [Tree.allSkeletons, Tree.allHtmlWith, Tree.allHtmlWith]
    rw [Tree.allParts, AllUnbracketed, List.forall_mem_append] at h
    exact .cons (Tree.html_skeleton t h.1) (Tree.html_skeletons rest h.2)

theorem Row.html_skeletons (statics : List String) : ∀ rs : List Row,
    AllUnbracketed (Row.allParts rs) → AllSameBrackets (Row.allHtmlWith f statics rs)
      (Row.allHtmlWith g statics (Row.allSkeletons rs))
  | [], _ => by
    rw [Row.allSkeletons, Row.allHtmlWith, Row.allHtmlWith]
    exact .nil
  | ⟨id, dynamics⟩ :: rest, h => by
    rw [Row.allSkeletons, Row.skeleton, Row.allHtmlWith, Row.allHtmlWith, Row.htmlWith,
      Row.htmlWith]
    rw [Row.allParts, Row.parts, AllUnbracketed, List.forall_mem_append, List.forall_mem_cons] at h
    exact .cons ((Dynamic.html_skeletons dynamics h.1.2).between statics)
      (Row.html_skeletons statics rest h.2)

end

end Trees

theorem componentHtml_skeleton {table : Nat → Option Tree}
    (h : ∀ cid, ∀ t ∈ table cid, AllUnbracketed t.parts) (depth cid : Nat) :
    SameBrackets (componentHtml table depth cid)
      (componentHtml (fun cid => (table cid).map Tree.skeleton) depth cid) := by
  induction depth generalizing cid with
  | zero =>
    intro page hpage
    cases hpage
  | succ depth ih =>
    rw [componentHtml, componentHtml]
    cases htable : table cid with
    | none =>
      intro page hpage
      cases hpage
    | some t => exact t.html_skeleton ih (h cid t htable)

namespace Snapshot

variable {s : Snapshot}

theorem table_skeleton (cid : Nat) : s.skeleton.table cid = (s.table cid).map Tree.skeleton := by
  rw [table, table, find?, skeleton, List.find?_map, Option.map_map, Option.map_map]
  rfl

/-- A page has the brackets of the statics alone, where the texts between them have none. -/
theorem html_skeleton (hroot : AllUnbracketed s.root.parts)
    (hcomponents : ∀ c ∈ s.components, AllUnbracketed c.tree.parts) :
    SameBrackets s.html s.skeleton.html := by
  have htable : s.skeleton.table = fun cid => (s.table cid).map Tree.skeleton :=
    funext table_skeleton
  have hlength : s.skeleton.components.length = s.components.length := List.length_map _
  rw [html_eq, html_eq, htable, hlength]
  apply s.root.html_skeleton _ hroot
  intro cid
  apply componentHtml_skeleton
  intro cid t ht
  obtain ⟨c, hc, rfl⟩ := Option.map_eq_some_iff.mp ht
  exact hcomponents c (List.mem_of_find?_eq_some hc)

end Snapshot

end LiveTemplate
