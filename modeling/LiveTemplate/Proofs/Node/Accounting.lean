import LiveTemplate.Proofs.Node.Laying
import Mathlib.Data.List.Nodup

/-!
Parsing loses and duplicates nothing. The places that the tokens of a template account for are those of
its tree, each of them once, and the nodes lie in the source as their tokens do.
-/

namespace LiveTemplate

set_option autoImplicit false

open Node (allPlaces branchPlaces slotPlaces bodyPlaces)

theorem Node.allPlaces_append (nodes more : List Node) :
    allPlaces (nodes ++ more) = allPlaces nodes ++ allPlaces more := by
  induction nodes with
  | nil => rfl
  | cons n rest ih => rw [List.cons_append, allPlaces, allPlaces, ih, List.append_assoc]

theorem Node.slotPlaces_cons (s : SlotEntry) (rest : List SlotEntry) : slotPlaces (s :: rest) =
    .tagStart s.name s.span.start :: bodyPlaces s.body ++ .tagStop s.span.stop :: slotPlaces rest := by
  cases s
  rfl

theorem Node.slotPlaces_append (slots more : List SlotEntry) :
    slotPlaces (slots ++ more) = slotPlaces slots ++ slotPlaces more := by
  induction slots with
  | nil => rfl
  | cons s rest ih => simp [slotPlaces_cons, ih]

theorem Node.branchPlaces_cons (b : Branch) (rest : List Branch) : branchPlaces (b :: rest) =
    .branch b.span :: allPlaces b.body ++ branchPlaces rest := by
  cases b
  rfl

theorem Node.branchPlaces_append (branches more : List Branch) :
    branchPlaces (branches ++ more) = branchPlaces branches ++ branchPlaces more := by
  induction branches with
  | nil => rfl
  | cons b rest ih => simp [branchPlaces_cons, ih]

theorem Node.places_component (c : ComponentNode) : (Node.component c).places =
    .tagStart c.tag c.span.start :: bodyPlaces c.body ++ slotPlaces c.slots ++
      [.tagStop c.span.stop] := by
  cases c
  rfl

theorem inLoop_places (loop : Option ForHeader) (n : Node) :
    (NodeTree.inLoop loop n).places = n.places := by
  cases loop with
  | none => rfl
  | some header => simp [NodeTree.inLoop, Node.places, allPlaces]

/-- The places of a part of a tree. -/
def NodePart.places : NodePart → List Place
  | .node n => n.places
  | .entry s => slotPlaces [s]
  | .content nodes slots => allPlaces nodes ++ slotPlaces slots
  | .branches bs => branchPlaces bs

theorem OpenTag.places_open {tag : OpenTag} (h : tag.isLone = false) :
    (Token.openTag tag).places = [.tagStart tag.given tag.span.start] := by
  simp [Token.places, h]

theorem OpenTag.places_lone {tag : OpenTag} (h : tag.isLone = true) :
    (Token.openTag tag).places = [.tagStart tag.given tag.span.start, .tagStop tag.span.stop] := by
  simp [Token.places, h]

theorem OpenTag.given_of_ne {tag : OpenTag} (h : tag.kind ≠ .slot) : tag.given = tag.name := by
  rw [given, if_neg h]

theorem OpenTag.given_component {tag : OpenTag} (h : tag.kind.isComponent = true) :
    tag.given = tag.name := by
  apply given_of_ne
  intro hslot
  rw [hslot] at h
  cases h

/-- What stands between two tokens is not all there is from the one to the other. -/
theorem Siblings.not_whole {ts : List Token} {nodes : List Node} {slots : List SlotEntry}
    (h : Siblings ts nodes slots) {t u : Token} (horder : Token.InOrder (t :: ts ++ [u])) :
    nodes.map Node.span ≠ [t.span.join u.span] := by
  intro hnodes
  obtain ⟨v, hv, hstart⟩ := (h.within (t.span.join u.span) (by simp [hnodes])).start
  have hstart : t.span.start = v.span.start := hstart
  have hbefore : t.span.stop ≤ v.span.start :=
    (List.pairwise_cons.1 horder.ordered).1 v (List.mem_append_left _ hv)
  have hnonempty := horder.nonempty t List.mem_cons_self
  omega

theorem flatMap_places_between (t u : Token) (ts : List Token) :
    (t :: ts ++ [u]).flatMap Token.places = t.places ++ (ts.flatMap Token.places ++ u.places) := by
  simp

theorem NodePart.places_content (nodes : List Node) :
    (NodePart.content nodes []).places = allPlaces nodes :=
  List.append_nil _

/-- The tokens that spell a part of a tree account for its places. -/
theorem Spells.accounted {source : Source} {ts : List Token} {part : NodePart}
    (h : Spells source ts part) (horder : Token.InOrder ts) :
    (ts.flatMap Token.places).Perm part.places := by
  induction h with
  | nothing => exact .nil
  | more _ _ ihBefore ihHere =>
    have before := ihBefore (horder.sublist (List.sublist_append_left _ _))
    have here := ihHere (horder.sublist (List.sublist_append_right _ _))
    rw [List.flatMap_append, NodePart.places, Node.allPlaces_append, allPlaces, allPlaces,
      List.append_nil, List.append_assoc]
    refine (before.append here).trans ?_
    -- the node comes after the slot entries that were read before it, yet its places come first
    rw [NodePart.places, NodePart.places, List.append_assoc]
    exact List.perm_append_comm.append_left _
  | moreSlots _ _ ihBefore ihHere =>
    have before := ihBefore (horder.sublist (List.sublist_append_left _ _))
    have here := ihHere (horder.sublist (List.sublist_append_right _ _))
    rw [List.flatMap_append, NodePart.places, Node.slotPlaces_append, ← List.append_assoc]
    exact before.append here
  | text => exact .refl _
  | code hrole =>
    rw [List.flatMap_singleton, Token.places, hrole]
    exact .refl _
  | @loneElement tag _ _ hkind hlone =>
    have hgiven : tag.given = tag.name := by
      apply OpenTag.given_of_ne
      rcases hkind with h | h <;> simp [h]
    rw [List.flatMap_singleton, OpenTag.places_lone hlone, hgiven, NodePart.places, inLoop_places]
    exact .refl _
  | @element tag _ _ ts _ kind span hkind hopen _ _ ih =>
    have inner := ih (horder.sublist (by simp))
    have hgiven : tag.given = tag.name := OpenTag.given_of_ne (by simp [hkind])
    rw [NodePart.places_content] at inner
    rw [flatMap_places_between, OpenTag.places_open hopen, hgiven, NodePart.places, inLoop_places]
    exact .cons _ (inner.append_right _)
  | @loneComponent tag c hkind hlone htag hslots hbody hspan =>
    rw [List.flatMap_singleton, OpenTag.places_lone hlone, OpenTag.given_component hkind,
      NodePart.places, Node.places_component, htag, hslots, hbody, hspan]
    exact .refl _
  | @component tag c ts children kind span hkind hopen _ htag hbody hspan ih =>
    have inner := ih (horder.sublist (by simp))
    rw [flatMap_places_between, OpenTag.places_open hopen, OpenTag.given_component hkind,
      NodePart.places, Node.places_component, htag, hbody, hspan]
    exact .cons _ (inner.append_right _)
  | @loneSlot tag s hkind hlone hname hbody hspan =>
    rw [List.flatMap_singleton, OpenTag.places_lone hlone, NodePart.places, Node.slotPlaces_cons,
      hname, hbody, hspan]
    exact .refl _
  | @slot tag s ts children kind span hkind hopen _ hname hbody hspan ih =>
    have inner := ih (horder.sublist (by simp))
    rw [NodePart.places_content] at inner
    rw [flatMap_places_between, OpenTag.places_open hopen, NodePart.places, Node.slotPlaces_cons,
      hname, hbody, hspan]
    exact .cons _ (inner.append_right _)
  | @loop mark mark' slice slice' span span' ts header children hopen hinner hstop ih =>
    have hsub : ts.Sublist (.code mark slice span :: ts ++ [.code mark' slice' span']) := by simp
    have inner := ih (horder.sublist hsub)
    -- a block has markers of its own, so it is not taken for a loop on a tag
    have hmarks : children.map Node.span ≠ [span.join span'] :=
      (hinner.laid (horder.sublist hsub)).not_whole horder
    rw [NodePart.places_content] at inner
    rw [flatMap_places_between, Token.places, Token.places, hopen, hstop, NodePart.places,
      Node.places, if_neg hmarks]
    exact .cons _ (inner.append_right _)
  | noBranch => exact .nil
  | @branch mark slice ts us bs b _ hbegins _ ihBefore ihInner =>
    have before := ihBefore (horder.sublist (List.sublist_append_left _ _))
    have inner := ihInner (horder.sublist (by simp))
    have hmark : (Token.code mark slice b.span).places = [.branch b.span] := by
      rw [Token.places, hbegins]
      split_ifs <;> rfl
    rw [NodePart.places_content] at inner
    rw [List.flatMap_append, List.flatMap_cons, hmark, NodePart.places, Node.branchPlaces_append,
      Node.branchPlaces_cons, branchPlaces, List.append_nil]
    exact before.append (.cons _ inner)
  | conditional _ hstop ih =>
    have inner := ih (horder.sublist (List.sublist_append_left _ _))
    rw [List.flatMap_append, List.flatMap_singleton, Token.places, hstop]
    exact inner.append_right _

/-- Where a place is: at the start of a token, at its end, or all over it. -/
def Place.Marks : Place → Span → Prop
  | .text _ span, s | .code span, s | .branch span, s => span = s
  | .tagStart _ offset, s | .loopStart offset, s => offset = s.start
  | .tagStop offset, s | .blockStop offset, s => offset = s.stop

theorem Place.Marks.meet {p : Place} {s t : Span} (hs : p.Marks s) (ht : p.Marks t) :
    s.start = t.start ∨ s.stop = t.stop := by
  cases p with
  | text | code | branch =>
    obtain rfl : s = t := Eq.trans (Eq.symm hs) ht
    exact .inl rfl
  | tagStart | loopStart => exact .inl (Eq.trans (Eq.symm hs) ht)
  | tagStop | blockStop => exact .inr (Eq.trans (Eq.symm hs) ht)

theorem Token.marks {t : Token} {p : Place} (h : p ∈ t.places) : p.Marks t.span := by
  cases t with
  | text content span =>
    rw [List.mem_singleton.1 h]
    rfl
  | openTag tag =>
    rcases List.mem_cons.1 h with rfl | h
    · rfl
    · split_ifs at h
      · rw [List.mem_singleton.1 h]
        rfl
      · cases h
  | closeTag name kind span =>
    rw [List.mem_singleton.1 h]
    rfl
  | code mark slice span =>
    rw [places] at h
    split at h <;>
    · rw [List.mem_singleton.1 h]
      rfl

theorem Token.nodup_places (t : Token) : t.places.Nodup := by
  cases t with
  | text | closeTag => exact List.nodup_singleton _
  | openTag tag =>
    rw [places]
    split_ifs <;> simp
  | code mark slice span =>
    rw [places]
    split <;> exact List.nodup_singleton _

/-- Tokens in the order of their source account for different places. -/
theorem Token.InOrder.nodup {ts : List Token} (h : Token.InOrder ts) :
    (ts.flatMap Token.places).Nodup := by
  refine List.nodup_flatMap.2 ⟨fun t _ => t.nodup_places, h.ordered.imp_of_mem ?_⟩
  intro t u ht hu hbefore p hpt hpu
  have hmeet := (Token.marks hpt).meet (Token.marks hpu)
  have hnonempty := h.nonempty t ht
  have hnonempty' := h.nonempty u hu
  rw [Span.Before] at hbefore
  omega

/-- How a parse tree stands for the tokens of its template. -/
structure NodeTree.StandsFor (tree : NodeTree) (source : Source) (tokens : List Token) : Prop where
  /-- Tags are closed by name and blocks within their tags; every token has its part in one node. -/
  spelt : Spells source tokens (.content tree.children [])
  /-- The places that the tokens account for are those of the tree. -/
  accounted : (tokens.flatMap Token.places).Perm (allPlaces tree.children)
  once : (allPlaces tree.children).Nodup
  encloses : source.span.Encloses (tree.children.map Node.span) []
  laid : ∀ n ∈ tree.children, n.Laid

/-- Parsing loses and duplicates nothing. -/
theorem NodeTree.ofTokens_standsFor {source : Source} {tokens : List Token} {tree : NodeTree}
    (htokens : Token.ofSource source = .ok tokens) (htree : ofTokens tokens source = .ok tree) :
    tree.StandsFor source tokens := by
  have htiled := Source.TiledBy.of_tiling (Token.ofSource_tiling htokens)
  have horder := Token.ofSource_inOrder htokens
  have hspells := ofTokens_spells htree
  have haccounted := hspells.accounted horder
  rw [NodePart.places_content] at haccounted
  have hsiblings : Siblings tokens tree.children [] := hspells.laid horder
  refine ⟨hspells, haccounted, haccounted.nodup horder.nodup, ⟨hsiblings.rows, ?_⟩, hsiblings.laid⟩
  intro s hs
  obtain ⟨⟨t, ht, hstart⟩, ⟨u, hu, hstop⟩⟩ := hsiblings.within s hs
  rw [Span.Inside, hstart, hstop]
  exact ⟨(htiled.inside t ht).2.1, (htiled.inside u hu).2.2⟩

/-- A slot entry is read amid the body of its component. -/
theorem NodeTree.ofTokens_card_standsFor :
    let source : Source := ⟨"<.a>b<:s/><%= if c %><br><% end %></.a>", "card"⟩
    let tokens := [
      .openTag ⟨".a", .localComponent, [], false, ⟨0, 4⟩⟩,
      .text "b" ⟨4, 5⟩,
      .openTag ⟨":s", .slot, [], true, ⟨5, 10⟩⟩,
      .code .output ⟨" if c ", ⟨13, 19⟩⟩ ⟨10, 21⟩,
      .openTag ⟨"br", .void, [], false, ⟨21, 25⟩⟩,
      .code .control ⟨" end ", ⟨27, 32⟩⟩ ⟨25, 34⟩,
      .closeTag ".a" .localComponent ⟨34, 39⟩]
    Token.ofSource source = .ok tokens ∧ ∃ tree, ofTokens tokens source = .ok tree ∧
      allPlaces tree.children = [.tagStart ".a" 0, .text "b" ⟨4, 5⟩, .branch ⟨10, 21⟩,
        .tagStart "br" 21, .tagStop 25, .blockStop 34, .tagStart "s" 5, .tagStop 10, .tagStop 39] ∧
      tree.StandsFor source tokens := by
  intro source tokens
  have htokens : Token.ofSource source = .ok tokens := toOption_eq_some.1 (by decide +kernel)
  have hplaces : (ofTokens tokens source).toOption.map (fun tree => allPlaces tree.children) =
      some [.tagStart ".a" 0, .text "b" ⟨4, 5⟩, .branch ⟨10, 21⟩, .tagStart "br" 21, .tagStop 25,
        .blockStop 34, .tagStart "s" 5, .tagStop 10, .tagStop 39] := by decide +kernel
  obtain ⟨tree, htree, hplaces⟩ := Option.map_eq_some_iff.1 hplaces
  have htree := toOption_eq_some.1 htree
  exact ⟨htokens, tree, htree, hplaces, ofTokens_standsFor htokens htree⟩

end LiveTemplate
