import LiveTemplate.Proofs.Snapshot.RoundTrip

/-!
The page of a snapshot depends on what its references lead to, and on nothing else of the table. What
is mounted beyond that changes neither the page nor the fault in its place.
-/

namespace LiveTemplate

set_option autoImplicit false

/-! ### Pages of trees -/

/-- A text that needs the pages of some components: it comes out if all of them do, and otherwise it
fails as one of them does. -/
def Settles {α : Type} (component : Nat → Except TreeError String) (refs : List Nat)
    (x : Except TreeError α) : Prop :=
  (∃ a, x = .ok a ∧ ∀ cid ∈ refs, ∃ page, component cid = .ok page) ∨
    ∃ e, x = .error e ∧ ∃ cid ∈ refs, component cid = .error e

namespace Settles

variable {α β : Type} {component : Nat → Except TreeError String} {refs more : List Nat}
  {x : Except TreeError α} {y : Except TreeError (List α)}

theorem ok (a : α) : Settles component [] (.ok a : Except TreeError α) :=
  .inl ⟨a, rfl, fun _ h => by cases h⟩

theorem map (h : Settles component refs x) (f : α → β) : Settles component refs (f <$> x) := by
  rcases h with ⟨a, rfl, hall⟩ | ⟨e, rfl, hone⟩
  · exact .inl ⟨f a, rfl, hall⟩
  · exact .inr ⟨e, rfl, hone⟩

theorem cons (hx : Settles component refs x) (hy : Settles component more y) :
    Settles component (refs ++ more) (do
      let a ← x
      let as ← y
      .ok (a :: as)) := by
  rcases hx with ⟨a, rfl, hx⟩ | ⟨e, rfl, cid, hcid, he⟩
  · rcases hy with ⟨as, rfl, hy⟩ | ⟨e, rfl, cid, hcid, he⟩
    · exact .inl ⟨a :: as, rfl, List.forall_mem_append.mpr ⟨hx, hy⟩⟩
    · exact .inr ⟨e, rfl, cid, List.mem_append_right refs hcid, he⟩
  · exact .inr ⟨e, rfl, cid, List.mem_append_left more hcid, he⟩

theorem exists_ok (h : Settles component refs x)
    (hall : ∀ cid ∈ refs, ∃ page, component cid = .ok page) : ∃ a, x = .ok a := by
  rcases h with ⟨a, ha, -⟩ | ⟨e, -, cid, hcid, he⟩
  · exact ⟨a, ha⟩
  · obtain ⟨page, hpage⟩ := hall cid hcid
    rw [hpage] at he
    cases he

end Settles

section Settled
variable (component : Nat → Except TreeError String)

mutual

theorem Tree.settles : ∀ t : Tree, Settles component t.refs (t.htmlWith component)
  | ⟨_, statics, dynamics, _, _⟩ => by
    rw [Tree.refs, Tree.htmlWith]
    exact (Dynamic.settles_all dynamics).map (interleave statics)

theorem Dynamic.settles : ∀ d : Dynamic, Settles component d.refs (d.htmlWith component)
  | ⟨_, content⟩ => by
    rw [Dynamic.refs, Dynamic.htmlWith]
    exact Content.settles content

theorem Content.settles : ∀ c : Content, Settles component c.refs (c.htmlWith component)
  | .text s => by
    rw [Content.refs, Content.htmlWith]
    exact .ok s
  | .component cid => by
    rw [Content.refs, Content.htmlWith]
    cases hcid : component cid with
    | ok page => exact .inl ⟨page, rfl, List.forall_mem_singleton.mpr ⟨page, hcid⟩⟩
    | error e => exact .inr ⟨e, rfl, cid, List.mem_singleton_self cid, hcid⟩
  | .nested tree => by
    rw [Content.refs, Content.htmlWith]
    exact Tree.settles tree
  | .list trees => by
    rw [Content.refs, Content.htmlWith]
    exact (Tree.settles_all trees).map String.join
  | .rows _ statics rows => by
    rw [Content.refs, Content.htmlWith]
    exact (Row.settles_all statics rows).map String.join

theorem Dynamic.settles_all : ∀ ds : List Dynamic,
    Settles component (Dynamic.allRefs ds) (Dynamic.allHtmlWith component ds)
  | [] => .ok []
  | d :: rest => by
    rw [Dynamic.allRefs, Dynamic.allHtmlWith]
    exact (Dynamic.settles d).cons (Dynamic.settles_all rest)

theorem Tree.settles_all : ∀ ts : List Tree,
    Settles component (Tree.allRefs ts) (Tree.allHtmlWith component ts)
  | [] => .ok []
  | t :: rest => by
    rw [Tree.allRefs, Tree.allHtmlWith]
    exact (Tree.settles t).cons (Tree.settles_all rest)

theorem Row.settles_all (statics : List String) : ∀ rs : List Row,
    Settles component (Row.allRefs rs) (Row.allHtmlWith component statics rs)
  | [] => .ok []
  | ⟨_, dynamics⟩ :: rest => by
    rw [Row.allRefs, Row.refs, Row.allHtmlWith, Row.htmlWith]
    exact ((Dynamic.settles_all dynamics).map (interleave statics)).cons
      (Row.settles_all statics rest)

end

end Settled

section Congruence
variable {f g : Nat → Except TreeError String}

mutual

/-- A page asks for nothing but the components that the tree refers to. -/
theorem Tree.htmlWith_congr : ∀ t : Tree, (∀ cid ∈ t.refs, f cid = g cid) →
    t.htmlWith f = t.htmlWith g
  | ⟨_, statics, dynamics, _, _⟩, h => by
    rw [Tree.refs] at h
    rw [Tree.htmlWith, Tree.htmlWith, Dynamic.allHtmlWith_congr dynamics h]

theorem Dynamic.htmlWith_congr : ∀ d : Dynamic, (∀ cid ∈ d.refs, f cid = g cid) →
    d.htmlWith f = d.htmlWith g
  | ⟨_, content⟩, h => by
    rw [Dynamic.refs] at h
    rw [Dynamic.htmlWith, Dynamic.htmlWith, Content.htmlWith_congr content h]

theorem Content.htmlWith_congr : ∀ c : Content, (∀ cid ∈ c.refs, f cid = g cid) →
    c.htmlWith f = c.htmlWith g
  | .text s, _ => rfl
  | .component cid, h => by
    rw [Content.refs] at h
    exact h cid (List.mem_singleton_self cid)
  | .nested tree, h => by
    rw [Content.refs] at h
    rw [Content.htmlWith, Content.htmlWith, Tree.htmlWith_congr tree h]
  | .list trees, h => by
    rw [Content.refs] at h
    rw [Content.htmlWith, Content.htmlWith, Tree.allHtmlWith_congr trees h]
  | .rows _ statics rows, h => by
    rw [Content.refs] at h
    rw [Content.htmlWith, Content.htmlWith, Row.allHtmlWith_congr statics rows h]

theorem Dynamic.allHtmlWith_congr : ∀ ds : List Dynamic,
    (∀ cid ∈ Dynamic.allRefs ds, f cid = g cid) →
      Dynamic.allHtmlWith f ds = Dynamic.allHtmlWith g ds
  | [], _ => rfl
  | d :: rest, h => by
    rw [Dynamic.allRefs, List.forall_mem_append] at h
    rw [Dynamic.allHtmlWith, Dynamic.allHtmlWith, Dynamic.htmlWith_congr d h.1,
      Dynamic.allHtmlWith_congr rest h.2]

theorem Tree.allHtmlWith_congr : ∀ ts : List Tree, (∀ cid ∈ Tree.allRefs ts, f cid = g cid) →
    Tree.allHtmlWith f ts = Tree.allHtmlWith g ts
  | [], _ => rfl
  | t :: rest, h => by
    rw [Tree.allRefs, List.forall_mem_append] at h
    rw [Tree.allHtmlWith, Tree.allHtmlWith, Tree.htmlWith_congr t h.1,
      Tree.allHtmlWith_congr rest h.2]

theorem Row.allHtmlWith_congr (statics : List String) : ∀ rs : List Row,
    (∀ cid ∈ Row.allRefs rs, f cid = g cid) →
      Row.allHtmlWith f statics rs = Row.allHtmlWith g statics rs
  | [], _ => rfl
  | ⟨_, dynamics⟩ :: rest, h => by
    rw [Row.allRefs, Row.refs, List.forall_mem_append] at h
    rw [Row.allHtmlWith, Row.allHtmlWith, Row.htmlWith, Row.htmlWith,
      Dynamic.allHtmlWith_congr dynamics h.1, Row.allHtmlWith_congr statics rest h.2]

end

end Congruence

/-- A page that comes out comes out the same wherever the components have the pages they had. -/
theorem Tree.htmlWith_eq_ok {f g : Nat → Except TreeError String} {t : Tree} {page : String}
    (h : t.htmlWith f = .ok page)
    (hfg : ∀ cid ∈ t.refs, ∀ text, f cid = .ok text → g cid = .ok text) :
    t.htmlWith g = .ok page := by
  rcases t.settles f with ⟨text, -, hall⟩ | ⟨e, he, -⟩
  · rw [← h]
    refine (t.htmlWith_congr fun cid hcid => ?_).symm
    obtain ⟨text, htext⟩ := hall cid hcid
    rw [htext, hfg cid hcid text htext]
  · rw [h] at he
    cases he

/-! ### Pages of components -/

section Components
variable {table : Nat → Option Tree}

theorem componentHtml_some {cid : Nat} {t : Tree} (h : table cid = some t) (depth : Nat) :
    componentHtml table (depth + 1) cid = t.htmlWith (componentHtml table depth) := by
  rw [componentHtml, h]

/-- With a greater depth allowed a page stays as it is. -/
theorem componentHtml_deeper {depth : Nat} : ∀ {cid : Nat} {page : String},
    componentHtml table depth cid = .ok page → componentHtml table (depth + 1) cid = .ok page := by
  induction depth with
  | zero => exact fun h => by cases h
  | succ depth ih =>
    intro cid page h
    cases htree : table cid with
    | none =>
      rw [componentHtml, htree] at h
      cases h
    | some t =>
      rw [componentHtml_some htree] at h ⊢
      exact Tree.htmlWith_eq_ok h fun cid _ text htext => ih htext

theorem componentHtml_le {depth deeper : Nat} (hle : depth ≤ deeper) {cid : Nat} {page : String}
    (h : componentHtml table depth cid = .ok page) : componentHtml table deeper cid = .ok page := by
  induction hle with
  | refl => exact h
  | step _ ih => exact componentHtml_deeper ih

/-- Numbers from which references lead to numbers of the same list only. -/
def ClosedUnder (table : Nat → Option Tree) (cids : List Nat) : Prop :=
  ∀ cid ∈ cids, ∃ t, table cid = some t ∧ ∀ ref ∈ t.refs, ref ∈ cids

variable {cids : List Nat} (hclosed : ClosedUnder table cids)
include hclosed

/-- Where every component is found, the only fault is that they contain each other. -/
theorem componentHtml_error {depth : Nat} : ∀ {cid : Nat} {e : TreeError}, cid ∈ cids →
    componentHtml table depth cid = .error e → e = .endless := by
  induction depth with
  | zero =>
    intro cid e _ h
    cases h
    rfl
  | succ depth ih =>
    intro cid e hcid h
    obtain ⟨t, ht, hrefs⟩ := hclosed cid hcid
    rw [componentHtml_some ht] at h
    rcases t.settles (componentHtml table depth) with ⟨text, htext, -⟩ | ⟨e', he', ref, href, hfails⟩
    · rw [htext] at h
      cases h
    · rw [he'] at h
      cases h
      exact ih (hrefs ref href) hfails

/-- A component whose page needs a depth has below it one that needs each smaller depth. -/
theorem exists_chain {depth : Nat} : ∀ {cid : Nat} {page : String}, cid ∈ cids →
    componentHtml table (depth + 1) cid = .ok page →
      (∀ text, componentHtml table depth cid ≠ .ok text) →
        ∃ chain : List Nat, chain.Nodup ∧ chain.length = depth + 1 ∧
          ∀ c ∈ chain, c ∈ cids ∧ ∃ text, componentHtml table (depth + 1) c = .ok text := by
  induction depth with
  | zero =>
    intro cid page hcid h _
    exact ⟨[cid], List.nodup_singleton cid, rfl, List.forall_mem_singleton.mpr ⟨hcid, page, h⟩⟩
  | succ depth ih =>
    intro cid page hcid h hless
    obtain ⟨t, ht, hrefs⟩ := hclosed cid hcid
    have hpage := h
    rw [componentHtml_some ht] at h hless
    -- one of the references needs the depth that is left, else the component would not need its own
    obtain ⟨ref, href, text, htext, hneeds⟩ : ∃ ref ∈ t.refs, ∃ text,
        componentHtml table (depth + 1) ref = .ok text ∧
          ∀ text, componentHtml table depth ref ≠ .ok text := by
      rcases t.settles (componentHtml table depth) with ⟨text, htext, -⟩ | ⟨e, -, ref, href, he⟩
      · exact absurd htext (hless text)
      · rcases t.settles (componentHtml table (depth + 1)) with ⟨-, -, hall⟩ | ⟨e', he', -⟩
        · obtain ⟨text, htext⟩ := hall ref href
          exact ⟨ref, href, text, htext, fun text hok => by rw [he] at hok; cases hok⟩
        · rw [h] at he'
          cases he'
    obtain ⟨chain, hnodup, hlength, hchain⟩ := ih (hrefs ref href) htext hneeds
    refine ⟨cid :: chain, List.nodup_cons.mpr ⟨fun hin => ?_, hnodup⟩,
      congrArg (· + 1) hlength, List.forall_mem_cons.mpr ⟨⟨hcid, page, hpage⟩, fun c hc => ?_⟩⟩
    · obtain ⟨-, text, htext⟩ := hchain cid hin
      rw [componentHtml_some ht] at htext
      exact hless text htext
    · obtain ⟨hc, text, htext⟩ := hchain c hc
      exact ⟨hc, text, componentHtml_deeper htext⟩

/-- No page needs a greater depth than there are components. -/
theorem componentHtml_enough {depth deeper : Nat} (hlength : cids.length ≤ depth)
    (hle : depth ≤ deeper) {cid : Nat} (hcid : cid ∈ cids) {page : String}
    (h : componentHtml table deeper cid = .ok page) : componentHtml table depth cid = .ok page := by
  induction hle with
  | refl => exact h
  | @step deeper hle ih =>
    by_cases hless : ∃ text, componentHtml table deeper cid = .ok text
    · obtain ⟨text, htext⟩ := hless
      rw [componentHtml_deeper htext] at h
      cases h
      exact ih htext
    · obtain ⟨chain, hnodup, hchain, hall⟩ :=
        exists_chain hclosed hcid h fun text htext => hless ⟨text, htext⟩
      have := (List.subperm_of_subset hnodup fun c hc => (hall c hc).1).length_le
      change depth ≤ deeper at hle
      omega

theorem componentHtml_stable {depth deeper : Nat} (hlength : cids.length ≤ depth)
    (hle : depth ≤ deeper) {cid : Nat} (hcid : cid ∈ cids) :
    componentHtml table deeper cid = componentHtml table depth cid := by
  cases hdeeper : componentHtml table deeper cid with
  | ok page => exact (componentHtml_enough hclosed hlength hle hcid hdeeper).symm
  | error e =>
    cases hdepth : componentHtml table depth cid with
    | ok page =>
      rw [componentHtml_le hle hdepth] at hdeeper
      cases hdeeper
    | error e' =>
      rw [componentHtml_error hclosed hcid hdeeper, componentHtml_error hclosed hcid hdepth]

theorem componentHtml_congr {other : Nat → Option Tree} (hsame : ∀ cid ∈ cids, other cid = table cid)
    (depth : Nat) : ∀ {cid : Nat}, cid ∈ cids →
      componentHtml other depth cid = componentHtml table depth cid := by
  induction depth with
  | zero => exact fun _ => rfl
  | succ depth ih =>
    intro cid hcid
    obtain ⟨t, ht, hrefs⟩ := hclosed cid hcid
    rw [componentHtml_some ht, componentHtml_some ((hsame cid hcid).trans ht)]
    exact t.htmlWith_congr fun ref href => ih (hrefs ref href)

end Components

/-! ### Pages of snapshots -/

namespace Snapshot

/-- The trees of components by their numbers. -/
def table (s : Snapshot) (cid : Nat) : Option Tree := (s.find? cid).map Instance.tree

theorem html_eq (s : Snapshot) :
    s.html = s.root.htmlWith (componentHtml s.table (s.components.length + 1)) := by
  have htable : (fun cid => ((s.components.map fun c => (c.cid, c.tree)).find?
      fun c => c.1 == cid).map Prod.snd) = s.table := by
    funext cid
    rw [List.find?_map, Option.map_map]
    rfl
  rw [html, Tree.html, List.length_map, ← htable]

theorem mem_cids_iff {s : Snapshot} {cid : Nat} :
    cid ∈ s.components.map Instance.cid ↔ s.contains cid = true := by
  rw [contains_iff, List.mem_map]

theorem Closed.closedUnder {s : Snapshot} (h : s.Closed) :
    ClosedUnder s.table (s.components.map Instance.cid) := by
  intro cid hcid
  rw [mem_cids_iff] at hcid
  cases hfind : s.find? cid with
  | none => exact absurd hcid (find?_eq_none_iff.mp hfind)
  | some c =>
    refine ⟨c.tree, by rw [table, hfind]; rfl, fun ref href => mem_cids_iff.mpr (h ref ?_)⟩
    exact List.mem_append_right _ (List.mem_flatMap.mpr ⟨c, List.mem_of_find?_eq_some hfind, href⟩)

theorem Closed.refs_root {s : Snapshot} (h : s.Closed) :
    ∀ cid ∈ s.root.refs, cid ∈ s.components.map Instance.cid :=
  fun cid hcid => mem_cids_iff.mpr (h cid (List.mem_append_left _ hcid))

/-- Components that nothing refers to are not on the page. -/
theorem html_grown {s : Snapshot} (h : s.Closed) (more : List Instance) :
    (s.grown more).html = s.html := by
  have hsame : ∀ cid ∈ s.components.map Instance.cid, (s.grown more).table cid = s.table cid := by
    intro cid hcid
    obtain ⟨t, ht, -⟩ := h.closedUnder cid hcid
    obtain ⟨c, hc, rfl⟩ := Option.map_eq_some_iff.mp ht
    rw [table, table, find?_grown, hc]
    rfl
  rw [html_eq, html_eq]
  refine s.root.htmlWith_congr fun cid hcid => ?_
  have hin := h.refs_root cid hcid
  rw [componentHtml_congr h.closedUnder hsame _ hin]
  refine componentHtml_stable h.closedUnder ?_ ?_ hin
  · rw [List.length_map]
    exact Nat.le_succ _
  · rw [grown, List.length_append]
    omega

end Snapshot

end LiveTemplate
