import LiveTemplate.Proofs.Session.Failure
import Mathlib.Data.List.Chain

/-!
Component numbers over a whole run. A key that two renders in a row have on show keeps its number,
and a number stays with the key that it was given to. A key that a render left out comes back under a
new number, unless a render takes over a stray: a component that slot content has mounted into a
render that was on show already.
-/

namespace LiveTemplate

set_option autoImplicit false

/-- What a render leaves behind if it counts. -/
structure Turn where
  /-- The components on show. -/
  table : List Instance
  /-- Those of them that the render before had come to hold without leaving them on show. -/
  strays : List Nat
  /-- The first number that is not given out by then. -/
  next : Nat

namespace Turn

def keys (turn : Turn) : List String := turn.table.map Instance.key

/-- A component of a turn was on show before, under the same number; or its key was not, and its
number is new or that of a stray. -/
structure Continues (turn last : Turn) : Prop where
  next_le : last.next ≤ turn.next
  origin : ∀ node ∈ turn.table,
    (∃ before ∈ last.table, before.key = node.key ∧ before.cid = node.cid) ∨
      node.key ∉ last.keys ∧ (last.next ≤ node.cid ∨ node.cid ∈ turn.strays)

theorem Continues.cid_eq {turn last : Turn} (h : turn.Continues last) (honce : last.keys.Nodup)
    {node before : Instance} (hnode : node ∈ turn.table) (hbefore : before ∈ last.table)
    (hkey : node.key = before.key) : node.cid = before.cid := by
  rcases h.origin node hnode with ⟨other, hother, hsame, hcid⟩ | ⟨habsent, -⟩
  · have heq := List.inj_on_of_nodup_map honce hother hbefore (hsame.trans hkey)
    rw [← hcid, heq]
  · refine absurd ?_ habsent
    rw [hkey]
    exact List.mem_map_of_mem hbefore

/-- The components of a turn have keys and numbers of their own. -/
structure Numbered (turn : Turn) : Prop where
  keys : turn.keys.Nodup
  cids : (turn.table.map Instance.cid).Nodup
  lt : ∀ node ∈ turn.table, node.cid < turn.next

theorem numbered_of_fits {u : Scene} (hu : u.Fits) {render : Nat} {turn : Turn}
    (htable : turn.table = (u.mounts.arena render).nodes)
    (hnext : turn.next = u.mounts.registry.next) : turn.Numbered where
  keys := by
    rw [keys, htable]
    exact (hu.arenas render).once
  cids := by
    rw [htable]
    exact hu.numbered render
  lt node hnode := by
    rw [htable] at hnode
    rw [hnext]
    exact hu.name_lt ((hu.arenas render).names node hnode)

section Chain
variable {newer older : List Turn} {gap : Turn}
  (h : (newer ++ gap :: older).IsChain Continues)
include h

theorem next_le_of_chain : ∀ turn ∈ newer, gap.next ≤ turn.next := by
  induction newer with
  | nil => exact List.forall_mem_nil _
  | cons first rest ih =>
    rw [List.cons_append, List.isChain_cons] at h
    have hrest := ih h.2
    refine List.forall_mem_cons.mpr ⟨?_, hrest⟩
    cases rest with
    | nil => exact (h.1 gap rfl).next_le
    | cons second more =>
      exact Nat.le_trans (hrest second List.mem_cons_self) (h.1 second rfl).next_le

/-- What comes back after a turn without it has a number that was not given out by then, or one that
came back as a stray. -/
theorem next_le_of_absent : ∀ turn ∈ newer, ∀ node ∈ turn.table, node.key ∉ gap.keys →
    gap.next ≤ node.cid ∨ ∃ between ∈ newer, node.cid ∈ between.strays := by
  induction newer with
  | nil => exact List.forall_mem_nil _
  | cons first rest ih =>
    have hle := next_le_of_chain h
    rw [List.cons_append, List.isChain_cons] at h
    rw [List.forall_mem_cons] at hle
    have hrest : ∀ turn ∈ rest, ∀ node ∈ turn.table, node.key ∉ gap.keys →
        gap.next ≤ node.cid ∨ ∃ between ∈ first :: rest, node.cid ∈ between.strays := by
      intro turn hturn node hnode habsent
      refine (ih h.2 turn hturn node hnode habsent).imp_right ?_
      rintro ⟨between, hbetween, hstray⟩
      exact ⟨between, List.mem_cons_of_mem first hbetween, hstray⟩
    refine List.forall_mem_cons.mpr ⟨fun node hnode habsent => ?_, hrest⟩
    -- the turn before is the gap itself, or one of those that came back already
    obtain ⟨last, hlast, hcase⟩ : ∃ last ∈ (rest ++ gap :: older).head?,
        last = gap ∨ last ∈ rest := by
      cases rest with
      | nil => exact ⟨gap, rfl, .inl rfl⟩
      | cons second more => exact ⟨second, rfl, .inr List.mem_cons_self⟩
    have hgap : gap.next ≤ last.next := by
      rcases hcase with rfl | hin
      · exact Nat.le_refl _
      · exact hle.2 last hin
    rcases (h.1 last hlast).origin node hnode with
      ⟨before, hbefore, hkey, hcid⟩ | ⟨-, hnew | hstray⟩
    · rw [← hkey] at habsent
      rw [← hcid]
      rcases hcase with rfl | hin
      · exact absurd (List.mem_map_of_mem hbefore) habsent
      · exact hrest last hin before hbefore habsent
    · exact .inl (Nat.le_trans hgap hnew)
    · exact .inr ⟨first, List.mem_cons_self, hstray⟩

theorem le_next_of_chain : ∀ turn ∈ older, turn.next ≤ gap.next := by
  intro turn hturn
  obtain ⟨between, oldest, rfl⟩ := List.append_of_mem hturn
  rw [← List.cons_append, ← List.append_assoc] at h
  exact next_le_of_chain h gap (List.mem_append_right newer List.mem_cons_self)

end Chain

end Turn

namespace Session

/-- Some render, be it one that counts or not, has mounted a key under a number. -/
def Gave (s : Session) (key : String) (cid : Nat) : Prop :=
  ∃ render, Assoc.get? (s.mounts.arena render).mounted key = some cid

/-- The turn that has led to a session from what was shown before. -/
def turnFrom (s : Session) (before : Option Shown) (turns : List Turn) : Turn where
  table := s.nodes s.shown
  strays := Live.straysOf ((turns.head?.map Turn.table).getD []) (s.nodes before)
    (s.nodes s.shown)
  next := s.mounts.registry.next

section Ran
variable (template : Template) (label : String)

/-- Sessions with the turns that have led to them, the last one first. -/
inductive Ran : Session → List Turn → Prop
  | created : Ran { template, label } []
  | assigned {s : Session} {turns : List Turn} (h : Ran s turns) (change : Assigning Unit)
      (journal : Journal) : Ran (((onAssigns change).run.run s).run journal).1.2 turns
  | failed {s after : Session} {turns : List Turn} (h : Ran s turns) {resolve : Resolver}
      {journal last : Journal} {e : SessionError}
      (hrun : ((render resolve).run.run s).run journal = ((.error e, after), last)) :
      Ran after turns
  | turned {s after : Session} {turns : List Turn} (h : Ran s turns) {resolve : Resolver}
      {journal last : Journal} {patch : Patch}
      (hrun : ((render resolve).run.run s).run journal = ((.ok patch, after), last)) :
      Ran after (after.turnFrom s.shown turns :: turns)

end Ran

theorem Ran.rendered {template : Template} {label : String} {s : Session} {turns : List Turn}
    (h : Ran template label s turns) (resolve : Resolver) (journal : Journal) :
    ∃ more, Ran template label (((render resolve).run.run s).run journal).1.2 (more ++ turns) := by
  cases hrun : ((render resolve).run.run s).run journal with
  | mk result last =>
    obtain ⟨result, after⟩ := result
    cases result with
    | error e => exact ⟨[], h.failed hrun⟩
    | ok patch => exact ⟨[after.turnFrom s.shown turns], h.turned hrun⟩

/-- To mount a session is part of a run, wherever it fails. -/
theorem Ran.mount {template : Template} {label : String} {s : Session} {turns : List Turn}
    (h : Ran template label s turns) (resolve : Resolver) (bindings : Record Value)
    (journal : Journal) : ∃ more, Ran template label
      (((Session.mount resolve bindings).run.run s).run journal).1.2 (more ++ turns) := by
  rcases s.mount_after resolve bindings journal with
    hsame | ⟨result, assigned, next, hassign, hsame⟩
  · rw [hsame]
    exact ⟨[], h⟩
  · have hassigned := h.assigned (Assigns.assignAll bindings) journal
    rw [hassign] at hassigned
    rcases hsame with hsame | ⟨-, hsame⟩
    · rw [hsame]
      exact ⟨[], hassigned⟩
    · rw [hsame]
      exact hassigned.rendered resolve next

/-- What can be told of component numbers from the turns of a run. -/
structure Numbering (s : Session) (turns : List Turn) : Prop where
  /-- No two components on show share a key or a number, not even those that came late. -/
  once : ((s.nodes s.shown).map Instance.key).Nodup ∧ ((s.nodes s.shown).map Instance.cid).Nodup
  turn_once : ∀ turn ∈ turns, turn.keys.Nodup ∧ (turn.table.map Instance.cid).Nodup
  gave : ∀ turn ∈ turns, ∀ node ∈ turn.table, s.Gave node.key node.cid
  /-- A number is given to one key only, also by renders that fail. -/
  key_eq : ∀ {key other : String} {cid : Nat}, s.Gave key cid → s.Gave other cid → key = other
  gave_lt : ∀ {key : String} {cid : Nat}, s.Gave key cid → cid < s.mounts.registry.next
  /-- What two turns in a row have on show keeps its number. -/
  kept : turns.IsChain fun turn last => ∀ node ∈ turn.table, ∀ before ∈ last.table,
    node.key = before.key → node.cid = before.cid
  /-- What comes back after a turn without it has a number that was not given out by then, unless it
  was taken over as a stray. -/
  renewed : ∀ {newer older : List Turn} {gap : Turn}, turns = newer ++ gap :: older →
    ∀ turn ∈ newer, ∀ node ∈ turn.table, node.key ∉ gap.keys →
      (∀ between ∈ newer, node.cid ∉ between.strays) → gap.next ≤ node.cid ∧
        ∀ earlier ∈ gap :: older, ∀ before ∈ earlier.table, before.cid < node.cid

/-- The scene of a session after some turns. -/
structure Numbered (s : Session) (g : Scene) (turns : List Turn) : Prop extends s.InScene g where
  hidden : s.shown = none → turns = []
  shows : ∀ top ∈ s.shown, ∃ last rest more, turns = last :: rest ∧ s.Shows g top last.table more
  /-- The live keys are those of the last turn. -/
  live : ∀ last ∈ turns.head?, ∀ key cid, Assoc.get? g.mounts.registry.live key = some cid ↔
    ∃ node ∈ last.table, node.key = key ∧ node.cid = cid
  next_le : ∀ last ∈ turns.head?, last.next ≤ g.mounts.registry.next
  continues : turns.IsChain Turn.Continues
  numbered : ∀ turn ∈ turns, turn.Numbered
  gave : ∀ turn ∈ turns, ∀ node ∈ turn.table, s.Gave node.key node.cid

section Numbered
variable {s : Session} {g u : Scene} {turns : List Turn} (h : s.Numbered g turns)
include h

theorem Numbered.fits_table {top : Shown} (htop : s.shown = some top) :
    ∃ table more, s.Shows g top table more := by
  obtain ⟨last, rest, more, -, hshows⟩ := h.shows top htop
  exact ⟨last.table, more, hshows⟩

theorem Numbered.numbering : s.Numbering turns where
  once := by
    cases hshown : s.shown with
    | none => exact ⟨.nil, .nil⟩
    | some top =>
      obtain ⟨table, more, hshows⟩ := h.fits_table hshown
      rw [← hshown, hshows.nodes_eq]
      exact ⟨hshows.keyed, hshows.numbered⟩
  turn_once turn hturn := ⟨(h.numbered turn hturn).keys, (h.numbered turn hturn).cids⟩
  gave := h.gave
  key_eq := by
    rintro key other cid ⟨render, hkey⟩ ⟨another, hother⟩
    rw [← h.mounts] at hkey hother
    exact h.rests.fits.name_eq ((h.rests.fits.arenas render).mounted key cid hkey)
      ((h.rests.fits.arenas another).mounted other cid hother)
  gave_lt := by
    rintro key cid ⟨render, hkey⟩
    rw [← h.mounts] at hkey ⊢
    exact h.rests.fits.name_lt ((h.rests.fits.arenas render).mounted key cid hkey)
  kept := h.continues.imp_of_mem_imp fun turn last _ hlast hcontinues node hnode before hbefore =>
    hcontinues.cid_eq (h.numbered last hlast).keys hnode hbefore
  renewed := by
    intro newer older gap hturns turn hturn node hnode habsent hstrays
    have hchain := h.continues
    rw [hturns] at hchain
    have hnext : gap.next ≤ node.cid := by
      rcases Turn.next_le_of_absent hchain turn hturn node hnode habsent with
        hnew | ⟨between, hbetween, hstray⟩
      · exact hnew
      · exact absurd hstray (hstrays between hbetween)
    refine ⟨hnext, fun earlier hearlier before hbefore => ?_⟩
    have hbelow : before.cid < earlier.next := by
      refine (h.numbered earlier ?_).lt before hbefore
      rw [hturns]
      exact List.mem_append_right newer hearlier
    rcases List.mem_cons.mp hearlier with rfl | hold
    · omega
    · have := Turn.le_next_of_chain hchain earlier hold
      omega

end Numbered

theorem numbered_created (template : Template) (label : String) :
    ({ template, label } : Session).Numbered Scene.blank [] where
  toInScene := inScene_created template label {}
  hidden _ := rfl
  shows top htop := by cases htop
  live last hlast := by cases hlast
  next_le last hlast := by cases hlast
  continues := .nil
  numbered := List.forall_mem_nil _
  gave := List.forall_mem_nil _

theorem Numbered.assigned {s : Session} {g : Scene} {turns : List Turn} (h : s.Numbered g turns)
    (assigns : Assigns) : Numbered { s with assigns } g turns := by
  have hscene : InScene { s with assigns } g := ⟨h.rests, h.mounts, h.root, h.lt⟩
  refine ⟨hscene, h.hidden, fun top htop => ?_, h.live, h.next_le, h.continues, h.numbered, h.gave⟩
  obtain ⟨last, rest, more, hturns, hshows⟩ := h.shows top htop
  exact ⟨last, rest, more, hturns, hscene, hshows.shown, hshows.nodes, hshows.mounted, hshows.late⟩

/-! ### What a render does -/

theorem mem_straysOf {shown held table : List Instance} {node : Instance} (hin : node ∈ table)
    (hheld : node ∈ held) (hnot : ∀ before ∈ shown, before.cid ≠ node.cid) :
    node.cid ∈ Live.straysOf shown held table := by
  rw [Live.straysOf, List.mem_filter, Bool.and_eq_true, Bool.not_eq_true', List.any_eq_true,
    List.any_eq_false]
  refine ⟨List.mem_map_of_mem hin, ⟨node, hheld, beq_self_eq_true _⟩, fun before hbefore => ?_⟩
  rw [beq_iff_eq]
  exact hnot before hbefore

section Rendered
variable {s : Session} {g u : Scene} (hle : g.started (s.shown.map Shown.render) ≤ u)
include hle

/-- What was given once is given ever after. -/
theorem InScene.gave_later (h : s.InScene g) {after : Session}
    (harenas : ∀ render, after.mounts.arena render = u.mounts.arena render) {key : String}
    {cid : Nat} (hgave : s.Gave key cid) : after.Gave key cid := by
  obtain ⟨render, hkey⟩ := hgave
  rw [← h.mounts] at hkey
  have hlt : render < g.mounts.renders.length := by
    refine Nat.lt_of_not_le fun hnone => ?_
    rw [Scene.arena_of_length_le hnone] at hkey
    cases hkey
  refine ⟨render, ?_⟩
  rw [harenas]
  refine (hle.arenas render).numbers key cid ?_
  rw [Scene.arena_started _ hlt]
  exact hkey

theorem InScene.next_le (h : s.InScene g) (hu : u.Fits) :
    g.mounts.registry.next ≤ u.mounts.registry.next := by
  have hbase : u.base = g.base := hle.base
  rw [← h.rests.base, ← hbase]
  exact hu.base_le

variable {turns : List Turn} (h : s.Numbered g turns) (hu : u.Fits)
include h hu

theorem Numbered.failed {done : RenderState} (hmounts : done.mounts = u.mounts) :
    Numbered { s with mounts := done.mounts } u.rested turns where
  toInScene := h.toInScene.failed hle hu hmounts
  hidden := h.hidden
  shows top htop := by
    obtain ⟨last, rest, more, hturns, hshows⟩ := h.shows top htop
    rw [hshows.shown, Option.map_some] at hle
    obtain ⟨new, hnodes, hnew⟩ := hshows.grown hle
    exact ⟨last, rest, more ++ new, hturns, hshows.failed hle hu hmounts hnodes hnew⟩
  live last hlast key cid := by
    rw [← h.live last hlast key cid]
    exact iff_of_eq (congrArg (fun live => Assoc.get? live key = some cid) hle.live)
  next_le last hlast := by
    have hmore : g.mounts.registry.next ≤ u.mounts.registry.next := h.toInScene.next_le hle hu
    exact Nat.le_trans (h.next_le last hlast) hmore
  continues := h.continues
  numbered := h.numbered
  gave turn hturn node hnode := h.toInScene.gave_later hle (fun render => by rw [hmounts])
    (h.gave turn hturn node hnode)

omit h in
/-- What stands in the table on show is in the last turn, or has come late, under a key and a number
of its own. -/
theorem Shows.left_or_late {top : Shown} {table more : List Instance}
    (hshows : s.Shows g top table more) {node : Instance}
    (hnode : node ∈ (u.mounts.arena top.render).nodes) :
    node ∈ table ∨ node.key ∉ table.map Instance.key ∧ ∀ before ∈ table, before.cid ≠ node.cid := by
  rw [hshows.shown, Option.map_some] at hle
  obtain ⟨late, hnodes, -⟩ := hshows.grown hle
  have hkeys := (hu.arenas top.render).once
  have hcids := hu.numbered top.render
  rw [hnodes, List.map_append, List.nodup_append] at hkeys hcids
  rw [hnodes] at hnode
  rcases List.mem_append.mp hnode with hin | hin
  · exact .inl hin
  · refine .inr ⟨fun hkey => ?_, fun before hbefore hcid => ?_⟩
    · exact hkeys.2.2 _ hkey _ (List.mem_map_of_mem hin) rfl
    · exact hcids.2.2 _ (List.mem_map_of_mem hbefore) _ (List.mem_map_of_mem hin) hcid

/-- A component of the next render was in the last turn, or its key was not. -/
theorem Numbered.origin {top : Shown} {last : Turn} {rest : List Turn} {more : List Instance}
    (hturns : turns = last :: rest) (hshows : s.Shows g top last.table more) {node : Instance}
    (hnode : node ∈ (u.mounts.arena g.mounts.renders.length).nodes) :
    (∃ before ∈ last.table, before.key = node.key ∧ before.cid = node.cid) ∨
      node.key ∉ last.keys ∧ (last.next ≤ node.cid ∨
        node ∈ (u.mounts.arena top.render).nodes ∧ ∀ before ∈ last.table, before.cid ≠ node.cid) := by
  have hlast : last ∈ turns.head? := by rw [hturns, List.head?_cons]; rfl
  have hlive : u.mounts.registry.live = g.mounts.registry.live := hle.live
  have hnew := g.arena_own (s.shown.map Shown.render)
  have harena := hle.arenas g.mounts.renders.length
  obtain ⟨own, hown, horigin⟩ := harena.nodes
  rw [hnew, List.nil_append] at hown
  rw [hown] at hnode
  rcases (horigin node hnode).2 with hkey | hborn | ⟨earlier, hearlier, hkept⟩
  · rw [hlive] at hkey
    exact .inl ((h.live last hlast node.key node.cid).mp hkey)
  · have hname : u.names node.cid node.key := by
      refine (hu.arenas g.mounts.renders.length).names node ?_
      rw [hown]
      exact hnode
    have habsent := hu.birth_new hborn hname
    refine .inr ⟨fun hin => ?_, .inl ?_⟩
    · obtain ⟨before, hbefore, hkey⟩ := List.mem_map.mp hin
      have hheld := (h.live last hlast node.key before.cid).mpr ⟨before, hbefore, hkey, rfl⟩
      rw [hlive, Assoc.contains, hheld] at habsent
      cases habsent
    · have hbase : u.base = g.base := hle.base
      have hge := hu.birth_ge hborn
      rw [hbase, h.rests.base] at hge
      exact Nat.le_trans (h.next_le last hlast) hge
  · -- it was kept, from the last turn or from what came late to it
    rw [harena.previous, hnew, hshows.shown, Option.map_some] at hearlier
    cases hearlier
    rcases hshows.left_or_late hle hu hkept with hin | ⟨habsent, hnot⟩
    · exact .inl ⟨node, hin, rfl, rfl⟩
    · exact .inr ⟨habsent, .inr ⟨hkept, hnot⟩⟩

/-- A turn that leaves the table of the next render continues the last one. -/
theorem Numbered.continues_last {top : Shown} {last : Turn} {rest : List Turn}
    {more : List Instance} (hturns : turns = last :: rest)
    (hshows : s.Shows g top last.table more) {turn : Turn}
    (htable : turn.table = (u.mounts.arena g.mounts.renders.length).nodes)
    (hstrays : turn.strays =
      Live.straysOf last.table (u.mounts.arena top.render).nodes turn.table)
    (hnext : turn.next = u.mounts.registry.next) : turn.Continues last where
  next_le := by
    have hlast := h.next_le last (by rw [hturns, List.head?_cons]; rfl)
    rw [hnext]
    exact Nat.le_trans hlast (h.toInScene.next_le hle hu)
  origin node hnode := by
    have hin := hnode
    rw [htable] at hin
    refine (h.origin hle hu hturns hshows hin).imp_right (And.imp_right (Or.imp_right ?_))
    rintro ⟨hheld, hnot⟩
    rw [hstrays]
    exact mem_straysOf hnode hheld hnot

end Rendered

/-- The keys that a render has mounted are those of its components, once it has succeeded. -/
theorem mounted_iff {g u : Scene} {previous : Option Nat} (hfill : (g.started previous).Filled u)
    (hu : u.Fits) (key : String) (cid : Nat) :
    Assoc.get? (u.mounts.arena g.mounts.renders.length).mounted key = some cid ↔
      ∃ node ∈ (u.mounts.arena g.mounts.renders.length).nodes, node.key = key ∧ node.cid = cid := by
  have hnumbers := (hu.arenas g.mounts.renders.length).numbers
  constructor
  · intro hkey
    rcases hfill _ key (Option.isSome_iff_exists.mpr ⟨cid, hkey⟩) with hbefore | ⟨node, hnode, rfl⟩
    · rw [g.arena_own] at hbefore
      cases hbefore
    · have hheld := hnumbers node hnode
      rw [hkey] at hheld
      cases hheld
      exact ⟨node, hnode, rfl, rfl⟩
  · rintro ⟨node, hnode, rfl, rfl⟩
    exact hnumbers node hnode

theorem Numbered.turned {s : Session} {g : Scene} {turns : List Turn} (h : s.Numbered g turns)
    {resolve : Resolver} {journal : Journal} {shown : Shown} {patch : Patch} {done : RenderState}
    (hrun : s.rendered resolve journal = (.ok (shown, patch), done)) :
    ∃ g', (s.turned shown done).Numbered g'
      ((s.turned shown done).turnFrom s.shown turns :: turns) := by
  obtain ⟨u, hle, hu, hmounts, hok⟩ := h.toInScene.leads_filled hrun
  obtain ⟨hfill, hrender, hroot, -⟩ := hok shown patch rfl
  have hshows : (s.turned shown done).Shows (u.committed shown.render) shown
      (u.mounts.arena shown.render).nodes [] := by
    refine h.toInScene.turned hle hu ?_ rfl hrender hroot
    rw [← hmounts]
    rfl
  generalize hturn : (s.turned shown done).turnFrom s.shown turns = turn
  have htable : turn.table = (u.mounts.arena shown.render).nodes := by
    rw [← hturn, ← hmounts]
    rfl
  have hnext : turn.next = u.mounts.registry.next := by
    rw [← hturn, ← hmounts]
    rfl
  have harenas : ∀ render, (s.turned shown done).mounts.arena render = u.mounts.arena render := by
    intro render
    rw [← hmounts]
    rfl
  have hnumbers := (hu.arenas shown.render).numbers
  refine ⟨u.committed shown.render, hshows.toInScene, (fun hnone => by cases hnone),
    fun top htop => ?_, fun last hlast => ?_, fun last hlast => ?_, ?_, ?_, ?_⟩
  · cases htop
    refine ⟨turn, turns, [], rfl, ?_⟩
    rw [htable]
    exact hshows
  · cases hlast
    rw [htable, hrender]
    exact mounted_iff hfill hu
  · cases hlast
    exact Nat.le_of_eq hnext
  · refine List.isChain_cons.mpr ⟨fun last hlast => ?_, h.continues⟩
    obtain ⟨top, htop⟩ : ∃ top, s.shown = some top := by
      refine Option.ne_none_iff_exists'.mp fun hnone => ?_
      rw [h.hidden hnone] at hlast
      cases hlast
    obtain ⟨before, rest, more, rfl, hbefore⟩ := h.shows top htop
    cases hlast
    rw [hrender] at htable
    refine h.continues_last hle hu rfl hbefore htable ?_ hnext
    rw [← hturn, htop, ← hmounts]
    rfl
  · exact List.forall_mem_cons.mpr ⟨Turn.numbered_of_fits hu htable hnext, h.numbered⟩
  · refine List.forall_mem_cons.mpr ⟨fun node hnode => ?_, fun turn hin node hnode => ?_⟩
    · rw [htable] at hnode
      refine ⟨shown.render, ?_⟩
      rw [harenas]
      exact hnumbers node hnode
    · exact h.toInScene.gave_later hle harenas (h.gave turn hin node hnode)

theorem Ran.numbered {template : Template} {label : String} {s : Session} {turns : List Turn}
    (h : Ran template label s turns) : ∃ g, s.Numbered g turns := by
  induction h with
  | created => exact ⟨_, numbered_created template label⟩
  | @assigned s turns h change journal ih =>
    obtain ⟨g, hg⟩ := ih
    obtain ⟨result, assigns, next, hrun⟩ := run_onAssigns change s journal
    rw [hrun]
    exact ⟨g, hg.assigned assigns⟩
  | failed h hrun ih =>
    obtain ⟨g, hg⟩ := ih
    obtain ⟨cause, done, hrendered, rfl⟩ := render_error hrun
    obtain ⟨u, hle, hu, hmounts, -⟩ := hg.toInScene.leads hrendered
    exact ⟨u.rested, hg.failed hle hu hmounts⟩
  | turned h hrun ih =>
    obtain ⟨g, hg⟩ := ih
    obtain ⟨shown, done, hrendered, rfl⟩ := render_ok hrun
    exact hg.turned hrendered

/-- In every run, with whatever renders failed on the way, no two components on show share a number,
a number stays with the key that it was given to, a key that two renders in a row have on show keeps
its number, and one that a render left out comes back under a new number unless as a stray. -/
theorem component_numbers_stable {template : Template} {label : String} {s : Session}
    {turns : List Turn} (h : Ran template label s turns) : s.Numbering turns := by
  obtain ⟨g, hg⟩ := h.numbered
  exact hg.numbering

/-- A run goes on as bindings are assigned and rendered. -/
def refreshed (resolve : Resolver) (run : Session × List Turn) (bindings : Record Value) :
    Session × List Turn :=
  let assigned := (((onAssigns (Assigns.assignAll bindings)).run.run run.1).run {}).1.2
  let rendered := (((render resolve).run.run assigned).run {}).1
  (rendered.2, if rendered.1.isOk then rendered.2.turnFrom assigned.shown run.2 :: run.2 else run.2)

theorem Ran.refreshed {template : Template} {label : String} {run : Session × List Turn}
    (h : Ran template label run.1 run.2) (resolve : Resolver) (updates : List (Record Value)) :
    Ran template label (updates.foldl (refreshed resolve) run).1
      (updates.foldl (refreshed resolve) run).2 := by
  induction updates generalizing run with
  | nil => exact h
  | cons bindings rest ih =>
    rw [List.foldl_cons]
    refine ih ?_
    have hassigned := h.assigned (Assigns.assignAll bindings) {}
    rw [Session.refreshed]
    generalize (((onAssigns (Assigns.assignAll bindings)).run.run run.1).run {}).1.2 = assigned
      at hassigned ⊢
    cases hrun : ((render resolve).run.run assigned).run {} with
    | mk result last =>
      obtain ⟨result, after⟩ := result
      cases result with
      | error e => exact hassigned.failed hrun
      | ok patch => exact hassigned.turned hrun

end Session

/-- A leaf that comes and goes, before an expression that can fail. -/
def flickering : UnitStep Template := do
  TemplateUnit.define "leaf" [.template "<i>x</i>"]
  TemplateUnit.compile "<%= if show %><.leaf/><% end %>{note.text}" none

def flicker : Except UnitError Template × TemplateUnit :=
  ((flickering.run.run { number := 0, name := "Ui", file := "Ui", helpers := [] }).run {}).1

def flickerTemplate : Template := flicker.1.toOption.get (by decide +kernel)

/-- The leaf is shown, hidden, and shown again, which fails once. -/
def flickerRun : Session × List Turn :=
  [[("show", .flag true), ("note", .text "")], [("show", .flag false)],
    [("show", .flag true), ("note", .null)], [("note", .text "")]].foldl
      (Session.refreshed (Library.resolver [(0, flicker.2)]))
      ({ template := flickerTemplate, label := "page" }, [])

/-- The leaf comes back under a new number; the one between went to the render that failed. -/
theorem flicker_component_numbers_stable :
    Session.Ran flickerTemplate "page" flickerRun.1 flickerRun.2 ∧
      flickerRun.2.map (fun turn => turn.table.map Instance.cid) = [[3], [], [1]] ∧
      flickerRun.1.Numbering flickerRun.2 := by
  have hran : Session.Ran flickerTemplate "page" flickerRun.1 flickerRun.2 :=
    Session.Ran.created.refreshed _ _
  exact ⟨hran, by decide +kernel, Session.component_numbers_stable hran⟩

end LiveTemplate
