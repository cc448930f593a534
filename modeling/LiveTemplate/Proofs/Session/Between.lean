import LiveTemplate.Proofs.Render.Soundness
import LiveTemplate.Session
import Mathlib.Data.List.Nodup

/-!
Scenes between the renders of a session. A render starts from a scene at rest and gives out new
component numbers only. What it mounts into the render on show, by slot content that was made there,
has keys that are not live; a later render that has such a component on show has kept it as it was.
-/

namespace LiveTemplate

set_option autoImplicit false

theorem arena_start (m : Mounts) (previous : Option Nat) (render : Nat) :
    (m.start previous).arena render =
      if render = m.renders.length then { previous } else m.arena render := by
  rw [Mounts.arena, Mounts.start, Mounts.arena, List.getD_eq_getElem?_getD,
    List.getD_eq_getElem?_getD]
  by_cases hr : render = m.renders.length
  · subst hr
    simp
  · rw [if_neg hr]
    by_cases hlt : render < m.renders.length
    · rw [List.getElem?_append_left hlt]
    · rw [List.getElem?_eq_none (Nat.le_of_not_lt hlt), List.getElem?_eq_none]
      rw [List.length_append, List.length_singleton]
      omega

theorem arena_start_own (m : Mounts) (previous : Option Nat) :
    (m.start previous).arena m.renders.length = { previous } := by
  rw [arena_start, if_pos rfl]

namespace Scene

/-- A scene where no render is on its way. -/
structure Rests (g : Scene) : Prop where
  fits : g.Fits
  base : g.base = g.mounts.registry.next
  order : ∀ {render earlier : Nat}, (g.mounts.arena render).previous = some earlier →
    earlier < render

/-- The scene where a render begins. -/
def started (g : Scene) (previous : Option Nat) : Scene :=
  { g with mounts := g.mounts.start previous }

theorem arena_started {g : Scene} (previous : Option Nat) {render : Nat}
    (hr : render < g.mounts.renders.length) :
    (g.started previous).mounts.arena render = g.mounts.arena render := by
  change (g.mounts.start _).arena _ = _
  rw [arena_start, if_neg (Nat.ne_of_lt hr)]

theorem arena_own (g : Scene) (previous : Option Nat) :
    (g.started previous).mounts.arena g.mounts.renders.length = { previous } :=
  arena_start_own g.mounts previous

theorem length_started (g : Scene) (previous : Option Nat) :
    (g.started previous).mounts.renders.length = g.mounts.renders.length + 1 := by
  change (g.mounts.renders ++ [_]).length = _
  rw [List.length_append, List.length_singleton]

/-- The scene after a render has failed. -/
def rested (g : Scene) : Scene :=
  { g with births := fun _ _ => False, base := g.mounts.registry.next }

/-- The scene after a render that counts. -/
def committed (g : Scene) (render : Nat) : Scene :=
  { g.rested with mounts := g.mounts.commit render }

section Started
variable {g u : Scene} {previous : Option Nat} (hg : g.Rests)
  (hprevious : ∀ earlier ∈ previous, earlier < g.mounts.renders.length)
include hg

theorem Rests.fits_started (previous : Option Nat) : (g.started previous).Fits := by
  refine { hg.fits with arenas := fun render => ?_ }
  change (g.started previous).FitsArena ((g.mounts.start previous).arena render)
  rw [arena_start]
  split
  · exact fitsArena_new _ previous
  · exact (hg.fits.arenas render).mono (fun _ h => h) fun _ _ h => h

include hprevious

theorem Rests.order_started {render earlier : Nat}
    (h : ((g.started previous).mounts.arena render).previous = some earlier) :
    earlier < render := by
  change ((g.mounts.start previous).arena render).previous = some earlier at h
  rw [arena_start] at h
  split at h
  · rename_i hr
    rw [hr]
    exact hprevious earlier h
  · exact hg.order h

/-- A number that a render gives out is found in no render before it. -/
theorem birth_le (hle : g.started previous ≤ u) (hu : u.Fits) {render origin : Nat}
    {node : Instance} (hnode : node ∈ (u.mounts.arena render).nodes)
    (hbirth : u.births node.cid origin) : origin ≤ render := by
  -- on the render: what it kept came from one before it
  induction render using Nat.strongRecOn generalizing node with
  | ind render ih =>
    have hbase : u.base = g.mounts.registry.next := hle.base.trans hg.base
    have hge := hu.birth_ge hbirth
    obtain ⟨more, hmore, hnew⟩ := (hle.arenas render).nodes
    rw [hmore] at hnode
    rcases List.mem_append.mp hnode with hold | hin
    · have hlt := (hg.fits_started previous).name_lt
        (((hg.fits_started previous).arenas render).names node hold)
      change node.cid < g.mounts.registry.next at hlt
      omega
    · rcases (hnew node hin).2 with hlive | hborn | ⟨earlier, hearlier, hkept⟩
      · have hlt := (hu.live hlive).2
        omega
      · exact Nat.le_of_eq (hu.birth_eq hbirth hborn)
      · rw [(hle.arenas render).previous] at hearlier
        have hlt := hg.order_started hprevious hearlier
        have := ih earlier hlt hkept hbirth
        omega

/-- What a render has mounted under a number that the render on show holds under a key that is not
live, it has kept from there. -/
theorem eq_of_late {render : Nat} (hpre : previous = some render)
    (hle : g.started previous ≤ u) (hu : u.Fits) {c e : Instance}
    (hc : c ∈ (u.mounts.arena g.mounts.renders.length).nodes)
    (he : e ∈ (u.mounts.arena render).nodes) (hcid : e.cid = c.cid)
    (hlate : Assoc.contains g.mounts.registry.live e.key = false) : e = c := by
  have hlt : render < g.mounts.renders.length := hprevious render hpre
  have hname := (hu.arenas render).names e he
  have harena := g.arena_own previous
  obtain ⟨more, hmore, hnew⟩ := (hle.arenas g.mounts.renders.length).nodes
  have hin := hc
  rw [hmore, harena] at hin
  -- a live key is not late, and a number given out since is in no render before
  rcases (hnew c (by simpa using hin)).2 with hlive | hborn | ⟨earlier, hearlier, hkept⟩
  · rw [hcid] at hname
    have hkey := hu.name_eq hname ((hu.arenas _).names c hc)
    rw [hkey, Assoc.contains, ← show _ = g.mounts.registry.live from hle.live, hlive] at hlate
    cases hlate
  · rw [← hcid] at hborn
    have := birth_le hg hprevious hle hu he hborn
    omega
  · rw [(hle.arenas _).previous, harena, hpre] at hearlier
    cases hearlier
    exact List.inj_on_of_nodup_map (hu.numbered render) he hkept hcid

end Started

theorem rests_rested {g u : Scene} {previous : Option Nat} (hg : g.Rests)
    (hprevious : ∀ earlier ∈ previous, earlier < g.mounts.renders.length)
    (hle : g.started previous ≤ u) (hu : u.Fits) : u.rested.Rests := by
  refine ⟨?_, rfl, fun {render earlier} h => ?_⟩
  · exact { hu with
      birth_ge := fun h => h.elim
      birth_lt := fun h => h.elim
      birth_eq := fun h => h.elim
      birth_new := fun h => h.elim
      base_le := Nat.le_refl _
      live := fun h => ⟨(hu.live h).1, hu.name_lt (hu.live h).1⟩
      arenas := fun render => (hu.arenas render).mono (fun _ h => h) fun _ _ h => h }
  · have hstarted := (hle.arenas render).previous
    change (u.mounts.arena render).previous = some earlier at h
    rw [hstarted] at h
    exact hg.order_started hprevious h

theorem rests_committed {g u : Scene} {previous : Option Nat} (hg : g.Rests)
    (hprevious : ∀ earlier ∈ previous, earlier < g.mounts.renders.length)
    (hle : g.started previous ≤ u) (hu : u.Fits) (render : Nat) : (u.committed render).Rests := by
  have hrests := rests_rested hg hprevious hle hu
  refine ⟨?_, rfl, hrests.order⟩
  exact { hrests.fits with
    birth_new := fun h => h.elim
    live := fun {key cid} h => by
      have hname := (hu.arenas render).mounted key cid h
      exact ⟨hname, hu.name_lt hname⟩
    arenas := fun other => (hu.arenas other).mono (fun _ h => h) fun _ _ h => h }

/-- The scene before anything was rendered. -/
def blank : Scene := ⟨fun _ => False, fun _ _ => False, fun _ _ => False, 1, {}⟩

theorem blank_rests : blank.Rests := by
  have harena : ∀ render, blank.mounts.arena render = {} :=
    fun render => arena_of_length_le (Nat.zero_le render)
  refine ⟨?_, rfl, fun {render earlier} h => ?_⟩
  · exact {
      part_lt := fun h => h.elim
      part_eq := fun h => h.elim
      name_lt := fun h => h.elim
      name_eq := fun h => h.elim
      birth_ge := fun h => h.elim
      birth_lt := fun h => h.elim
      birth_eq := fun h => h.elim
      birth_new := fun h => h.elim
      base_le := Nat.le_refl 1
      live := fun h => by cases h
      arenas := fun render => by
        rw [harena]
        exact fitsArena_new blank none }
  · rw [harena] at h
    cases h

end Scene

/-! ### The next render of a session -/

/-- The patch to a tree that a session has rendered. -/
def Session.patchTo (s : Session) (root : Tree) : Render (Shown × Patch) := do
  let mounts := (← get).mounts
  let before := { s with mounts }.current
  let patch ← Render.ofTree (Snapshot.diff before (mounts.snapshot s.mounts.nextRender root))
  return (⟨root, s.mounts.nextRender⟩, patch)

theorem Session.next_eq (s : Session) (resolve : Resolver) : s.next resolve =
    s.template.render resolve s.frame (s.shown.map Shown.root) >>= s.patchTo := rfl

theorem Session.run_patchTo (s : Session) (root : Tree) (st : RenderState) :
    (s.patchTo root).run.run st =
      ((Snapshot.diff (s.shown.map fun before => st.mounts.snapshot before.render before.root)
        (st.mounts.snapshot s.mounts.renders.length root)).map
          (fun patch => ((⟨root, s.mounts.renders.length⟩ : Shown), patch)) |>.mapError .tree,
        st) := by
  have hget : ∀ f : RenderState → Render (Shown × Patch),
      ((get >>= f : Render (Shown × Patch)).run.run st) = (f st).run.run st := fun _ => rfl
  rw [Session.patchTo, hget]
  change (Render.ofTree (Snapshot.diff
    (s.shown.map fun before => st.mounts.snapshot before.render before.root)
    (st.mounts.snapshot s.mounts.renders.length root)) >>= _).run.run st = _
  cases Snapshot.diff (s.shown.map fun before => st.mounts.snapshot before.render before.root)
    (st.mounts.snapshot s.mounts.renders.length root) <;> rfl

/-- What the next render of a session comes to, from a scene at rest. -/
theorem Session.next_leads {s : Session} {g : Scene} (hg : g.Rests) (hm : g.mounts = s.mounts)
    (hroot : ∀ shown ∈ s.shown, g.Knows shown.root.parts) (resolve : Resolver)
    (journal : Journal) {result : Except RenderError (Shown × Patch)} {done : RenderState}
    (hrun : (s.next resolve).run.run ⟨s.mounts.start (s.shown.map Shown.render), journal⟩ =
      (result, done)) :
    ∃ u, g.started (s.shown.map Shown.render) ≤ u ∧ u.Fits ∧ done.mounts = u.mounts ∧
      ∀ shown patch, result = .ok (shown, patch) →
        (g.started (s.shown.map Shown.render)).Filled u ∧
        shown.render = s.mounts.renders.length ∧ u.Knows shown.root.parts ∧
          Snapshot.diff (s.shown.map fun before => u.mounts.snapshot before.render before.root)
            (u.mounts.snapshot s.mounts.renders.length shown.root) = .ok patch := by
  let h := g.started (s.shown.map Shown.render)
  have hknows : ∀ t ∈ s.shown.map Shown.root, h.Knows t.parts := by
    intro t ht
    obtain ⟨shown, hshown, rfl⟩ := Option.map_eq_some_iff.mp ht
    exact hroot shown hshown
  have hsound : Sound h (s.next resolve) fun u r => r.1.render = s.mounts.renders.length ∧
      u.Knows r.1.root.parts ∧
        Snapshot.diff (s.shown.map fun before => u.mounts.snapshot before.render before.root)
          (u.mounts.snapshot s.mounts.renders.length r.1.root) = .ok r.2 := by
    rw [Session.next_eq]
    refine (sound_renderWithin resolve renderDepth s.template.fragment s.frame hknows).bind
      fun u root hu hroot => Sound.stillAt (fun st => ?_) fun st r v hr hv hst => ?_
    · rw [Session.run_patchTo]
    · rw [Session.run_patchTo] at hr
      change st.mounts = v.mounts at hst
      cases hdiff : Snapshot.diff
          (s.shown.map fun before => st.mounts.snapshot before.render before.root)
          (st.mounts.snapshot s.mounts.renders.length root) with
      | error e =>
        rw [hdiff] at hr
        cases hr
      | ok patch =>
        rw [hdiff] at hr
        cases hr
        rw [hst] at hdiff
        exact ⟨rfl, hroot.mono hv, hdiff⟩
  have hstart : HasMounts.mounts (⟨s.mounts.start (s.shown.map Shown.render), journal⟩ : RenderState) =
      h.mounts := by
    change s.mounts.start _ = g.mounts.start _
    rw [hm]
  obtain ⟨u, hu, hufits, hus, hok⟩ := hsound h _ (Scene.le_refl h)
    (hg.fits_started _) hstart
  rw [hrun] at hus hok
  exact ⟨u, hu, hufits, hus, fun shown patch hr => hok (shown, patch) hr⟩

end LiveTemplate
