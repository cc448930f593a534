import LiveTemplate.Proofs.Render.Scene
import LiveTemplate.Render.Basic

/-!
Steps that lead from scene to scene, whether they fail or not: to hand out an identity, to enter and
to leave a mount, to keep what was mounted before.
-/

namespace LiveTemplate

set_option autoImplicit false

/-- States with the mounts of a page. -/
class HasMounts (σ : Type) where
  mounts : σ → Mounts

open HasMounts (mounts)

instance : HasMounts Mounts := ⟨id⟩

instance : HasMounts RenderState := ⟨RenderState.mounts⟩

/-- A step from a state leads to a scene that is later than a given one; if it succeeds, it has put
all that it mounted since into its renders. -/
def Leads {σ ε α : Type} [HasMounts σ] (k : Scene) (s : σ) (x : ExceptT ε (StateM σ) α)
    (post : Scene → α → Prop) : Prop :=
  ∃ u : Scene, k ≤ u ∧ u.Fits ∧ mounts (x.run.run s).2 = u.mounts ∧
    ∀ a, (x.run.run s).1 = .ok a → k.Filled u ∧ post u a

/-- From any scene later than `g` a step leads to one that is later still. -/
def Sound {σ ε α : Type} [HasMounts σ] (g : Scene) (x : ExceptT ε (StateM σ) α)
    (post : Scene → α → Prop) : Prop :=
  ∀ (h : Scene) (s : σ), g ≤ h → h.Fits → mounts s = h.mounts → Leads h s x post

/-- From any scene later than `g` a step leads to one that is later than `k`, with the mounts closed
that were open on the way. -/
def SoundOver {σ ε α : Type} [HasMounts σ] (k g : Scene) (x : ExceptT ε (StateM σ) α)
    (post : Scene → α → Prop) : Prop :=
  ∀ (h : Scene) (s : σ), g ≤ h → g.Filled h → h.Fits → mounts s = h.mounts → Leads k s x post

namespace Sound

variable {σ ε α β : Type} [HasMounts σ] {g : Scene} {x : ExceptT ε (StateM σ) α}
  {f : α → ExceptT ε (StateM σ) β} {post : Scene → α → Prop} {last : Scene → β → Prop}

theorem mono (hx : Sound g x post) {h : Scene} (hle : g ≤ h) : Sound h x post :=
  fun k s hk => hx k s (Scene.le_trans hle hk)

theorem stillAt (hx : ∀ s, mounts (x.run.run s).2 = mounts s)
    (hpost : ∀ s a u, (x.run.run s).1 = .ok a → g ≤ u → mounts s = u.mounts → post u a) :
    Sound g x post :=
  fun h s hle hfits hs => ⟨h, Scene.le_refl h, hfits, (hx s).trans hs,
    fun a ha => ⟨.refl h, hpost s a h ha hle hs⟩⟩

theorem still (hx : ∀ s, mounts (x.run.run s).2 = mounts s)
    (hpost : ∀ s a u, (x.run.run s).1 = .ok a → g ≤ u → post u a) : Sound g x post :=
  stillAt hx fun s a u ha hu _ => hpost s a u ha hu

theorem pure {a : α} (hpost : ∀ u, g ≤ u → post u a) :
    Sound g (Pure.pure a : ExceptT ε (StateM σ) α) post := by
  refine still (fun _ => rfl) fun s b u hb hle => ?_
  cases hb
  exact hpost u hle

theorem throw (e : ε) : Sound g (MonadExcept.throw e : ExceptT ε (StateM σ) α) post :=
  still (fun _ => rfl) fun s a u ha => by cases ha

omit [HasMounts σ] in
theorem run_bind (s : σ) : (x >>= f).run.run s =
    (match x.run.run s with
      | (.ok a, s') => (f a).run.run s'
      | (.error e, s') => (.error e, s')) := by
  change (ExceptT.bindCont f (x.run.run s).1).run (x.run.run s).2 = _
  cases hx : x.run.run s with
  | mk result s' => cases result <;> rfl

theorem bind (hx : Sound g x post) (hf : ∀ u a, g ≤ u → post u a → Sound u (f a) last) :
    Sound g (x >>= f) last := by
  intro h s hle hfits hs
  obtain ⟨u, hu, hufits, hus, ha⟩ := hx h s hle hfits hs
  rw [Leads, run_bind]
  cases hrun : x.run.run s with
  | mk result s' =>
    rw [hrun] at hus ha
    cases result with
    | error e => exact ⟨u, hu, hufits, hus, fun b hb => by cases hb⟩
    | ok a =>
      obtain ⟨hfill, ha⟩ := ha a rfl
      obtain ⟨v, hv, hvfits, hvs, hb⟩ :=
        hf u a (Scene.le_trans hle hu) ha u s' (Scene.le_refl u) hufits hus
      exact ⟨v, Scene.le_trans hu hv, hvfits, hvs,
        fun b hok => (hb b hok).imp_left fun hmore => hfill.trans hmore hv⟩

theorem map {k : α → β} (hx : Sound g x post) (hk : ∀ u a, g ≤ u → post u a → last u (k a))
    (hlast : ∀ u v b, u ≤ v → last u b → last v b) : Sound g (k <$> x) last := by
  rw [← bind_pure_comp]
  refine hx.bind fun u a hle ha => pure fun v hv => ?_
  exact hlast u v (k a) hv (hk u a hle ha)

theorem widen (hx : Sound g x post) {k : Scene} (hk : k ≤ g) (hkfill : k.Filled g) :
    SoundOver k g x post := by
  intro h s hle hfill hfits hs
  obtain ⟨u, hu, hufits, hus, ha⟩ := hx h s hle hfits hs
  exact ⟨u, Scene.le_trans hk (Scene.le_trans hle hu), hufits, hus,
    fun a hok => (ha a hok).imp_left fun hmore => (hkfill.trans hfill hle).trans hmore hu⟩

theorem bind_over (hx : Sound g x post) {k : Scene} (hk : k ≤ g)
    (hf : ∀ u a, g ≤ u → g.Filled u → post u a → SoundOver k u (f a) last) :
    SoundOver k g (x >>= f) last := by
  intro h s hle hfill hfits hs
  obtain ⟨u, hu, hufits, hus, ha⟩ := hx h s hle hfits hs
  rw [Leads, run_bind]
  cases hrun : x.run.run s with
  | mk result s' =>
    rw [hrun] at hus ha
    cases result with
    | error e =>
      exact ⟨u, Scene.le_trans hk (Scene.le_trans hle hu), hufits, hus, fun b hb => by cases hb⟩
    | ok a =>
      obtain ⟨hmore, ha⟩ := ha a rfl
      exact hf u a (Scene.le_trans hle hu) (hfill.trans hmore hu) ha u s' (Scene.le_refl u) (.refl u)
        hufits hus

theorem forM {f : β → ExceptT ε (StateM σ) PUnit} {xs : List β}
    (hf : ∀ x, Sound g (f x) fun _ _ => True) : Sound g (xs.forM f) fun _ _ => True := by
  induction xs generalizing g with
  | nil => exact pure fun _ _ => trivial
  | cons x rest ih =>
    change Sound g (f x >>= fun _ => rest.forM f) _
    exact (hf x).bind fun u _ hu _ => ih fun y => (hf y).mono hu

end Sound

theorem SoundOver.bind {σ ε α β : Type} [HasMounts σ] {k g : Scene} {x : ExceptT ε (StateM σ) α}
    {f : α → ExceptT ε (StateM σ) β} {post : Scene → α → Prop} {last : Scene → β → Prop}
    (hx : SoundOver k g x post)
    (hf : ∀ u a, k ≤ u → k.Filled u → post u a → SoundOver k u (f a) last) :
    SoundOver k g (x >>= f) last := by
  intro h s hle hfill hfits hs
  obtain ⟨u, hu, hufits, hus, ha⟩ := hx h s hle hfill hfits hs
  rw [Leads, Sound.run_bind]
  cases hrun : x.run.run s with
  | mk result s' =>
    rw [hrun] at hus ha
    cases result with
    | error e => exact ⟨u, hu, hufits, hus, fun b hb => by cases hb⟩
    | ok a =>
      obtain ⟨hmore, ha⟩ := ha a rfl
      exact hf u a hu hmore ha u s' (Scene.le_refl u) (.refl u) hufits hus

theorem contains_of_set {κ α : Type} [DecidableEq κ] {table : Assoc κ α} {key other : κ}
    {value : α} (h : Assoc.contains (Assoc.set table other value) key = true) :
    Assoc.contains table key = true ∨ key = other := by
  by_cases ho : other = key
  · exact .inr ho.symm
  · rw [Assoc.contains, Assoc.get?_set_of_ne _ _ ho] at h
    exact .inl h

/-- What is set under a new key leaves the old ones as they are. -/
theorem get?_set_of_new {κ α : Type} [DecidableEq κ] {table : Assoc κ α} {key other : κ}
    {held : α} (value : α) (hnew : Assoc.contains table other = false)
    (h : Assoc.get? table key = some held) :
    Assoc.get? (Assoc.set table other value) key = some held := by
  rw [Assoc.get?_set_of_ne _ _ fun ho => ?_]
  · exact h
  · rw [ho, Assoc.contains, h] at hnew
    cases hnew

/-! ### Identities -/

/-- A new identity is that of the part that is made with it. -/
theorem sound_newPart (g : Scene) (make : Identity → Part) (hid : ∀ i, (make i).id? = some i) :
    Sound g Mounts.newPart fun u i => u.parts (make i) := by
  intro h m hle hfits hm
  obtain rfl : m = h.mounts := hm
  have hnew : ∀ p, h.parts p → p.id? ≠ some h.mounts.nextPart := by
    intro p hp hi
    exact Nat.lt_irrefl _ (hfits.part_lt hp hi)
  let u : Scene := { h with
    parts := fun p => h.parts p ∨ p = make h.mounts.nextPart
    mounts := { h.mounts with nextPart := h.mounts.nextPart + 1 } }
  have hu : h ≤ u := by
    refine ⟨fun p hp => .inl hp, fun _ _ hn => hn, fun _ _ hb => hb, rfl, rfl, rfl, fun k => ?_⟩
    exact Scene.ArenaLe.of_eq rfl
  refine ⟨u, hu, ?_, rfl, fun i hi => ?_⟩
  · exact { hfits with
      part_lt := by
        rintro p i (hp | rfl) hi
        · exact Nat.lt_succ_of_lt (hfits.part_lt hp hi)
        · rw [hid] at hi
          cases hi
          exact Nat.lt_succ_self _
      part_eq := by
        rintro p q i (hp | rfl) (hq | rfl) hpi hqi
        · exact hfits.part_eq hp hq hpi hqi
        · rw [hid] at hqi
          cases hqi
          exact absurd hpi (hnew p hp)
        · rw [hid] at hpi
          cases hpi
          exact absurd hqi (hnew q hq)
        · rfl
      arenas := fun k => (hfits.arenas k).mono hu.parts hu.names }
  · cases hi
    exact ⟨.of_renders rfl, .inr rfl⟩

/-! ### Entering and leaving -/

namespace Scene

/-- A mount that was entered and not yet left. -/
structure Open (g : Scene) (render : Nat) (key : String) (cid : Nat) : Prop where
  name : g.names cid key
  origin : Assoc.get? g.mounts.registry.live key = some cid ∨ g.births cid render
  mounted : render < g.mounts.renders.length →
    Assoc.get? (g.mounts.arena render).mounted key = some cid
  absent : ∀ node ∈ (g.mounts.arena render).nodes, node.key ≠ key

theorem Open.mono {g h : Scene} (hle : g ≤ h) {render : Nat} {key : String} {cid : Nat}
    (ho : g.Open render key cid) : h.Open render key cid where
  name := hle.names _ _ ho.name
  origin := by
    rcases ho.origin with hlive | hbirth
    · exact .inl (hle.live ▸ hlive)
    · exact .inr (hle.births _ _ hbirth)
  mounted hr := (hle.arenas render).numbers key cid (ho.mounted (hle.renders ▸ hr))
  absent := by
    obtain ⟨more, hmore, hnew⟩ := (hle.arenas render).nodes
    intro node hnode
    by_cases hr : render < g.mounts.renders.length
    · rw [hmore] at hnode
      rcases List.mem_append.mp hnode with hold | hin
      · exact ho.absent node hold
      · rintro rfl
        have habsent := (hnew node hin).1
        rw [Assoc.contains, ho.mounted hr] at habsent
        cases habsent
    · have hnone : h.mounts.renders.length ≤ render := hle.renders ▸ Nat.le_of_not_lt hr
      rw [arena_of_length_le hnone] at hnode
      cases hnode

/-- The components of all keys that were mounted on the way have come to their renders, but for a
mount that is still open. -/
def FilledBut (k g : Scene) (render : Nat) (key : String) : Prop :=
  ∀ other name, Assoc.contains (g.mounts.arena other).mounted name = true →
    Assoc.contains (k.mounts.arena other).mounted name = true ∨
      (∃ node ∈ (g.mounts.arena other).nodes, node.key = name) ∨ other = render ∧ name = key

theorem FilledBut.trans {k g h : Scene} {render : Nat} {key : String}
    (hkg : k.FilledBut g render key) (hgh : g.Filled h) (hle : g ≤ h) :
    k.FilledBut h render key := by
  intro other name hmounted
  rcases hgh other name hmounted with hold | hin
  · rcases hkg other name hold with hold | ⟨node, hn, hkey⟩ | hopen
    · exact .inl hold
    · exact .inr (.inl ⟨node, (hle.arenas other).mem hn, hkey⟩)
    · exact .inr (.inr hopen)
  · exact .inr (.inl hin)

section Note
variable {h u : Scene} {render cid : Nat} {key : String}
  (hm : u.mounts.renders = (h.mounts.update render fun a => a.note key cid).renders)
include hm

theorem filledBut_of_note : h.FilledBut u render key := by
  intro other name hmounted
  rw [arena_of_renders hm, arena_update] at hmounted
  split at hmounted
  · rename_i hr
    rcases contains_of_set hmounted with hold | hkey
    · exact .inl (hr.1 ▸ hold)
    · exact .inr (.inr ⟨hr.1, hkey⟩)
  · exact .inl hmounted

theorem le_of_note (hp : ∀ p, h.parts p → u.parts p)
    (hn : ∀ cid key, h.names cid key → u.names cid key)
    (hb : ∀ cid render, h.births cid render → u.births cid render) (hbase : u.base = h.base)
    (hlive : u.mounts.registry.live = h.mounts.registry.live)
    (hnew : Assoc.contains (h.mounts.arena render).mounted key = false) : h ≤ u := by
  refine ⟨hp, hn, hb, hbase, hlive, length_of_update hm, ArenaLe.of_update hm fun _ he => ?_⟩
  constructor
  · rw [he]
    rfl
  · intro other c hother
    rw [he]
    exact get?_set_of_new cid hnew hother
  · exact ⟨[], by rw [he, List.append_nil]; rfl, fun node hnode => by cases hnode⟩

theorem open_of_note (hfits : h.Fits)
    (hnew : Assoc.contains (h.mounts.arena render).mounted key = false) (hname : u.names cid key)
    (horigin : Assoc.get? u.mounts.registry.live key = some cid ∨ u.births cid render) :
    u.Open render key cid := by
  have harena := arena_of_renders hm render
  rw [arena_update] at harena
  refine ⟨hname, horigin, fun hr => ?_, fun node hnode => ?_⟩
  · rw [length_of_update hm] at hr
    rw [harena, if_pos ⟨rfl, hr⟩]
    exact Assoc.get?_set_self _ key cid
  · have hin : node ∈ (h.mounts.arena render).nodes := by
      rw [harena] at hnode
      split at hnode <;> exact hnode
    rintro rfl
    rw [(hfits.arenas render).keys node hin] at hnew
    cases hnew

end Note

theorem FitsArena.note {g : Scene} {a : Arena} (ha : g.FitsArena a) {key : String} {cid : Nat}
    (hname : g.names cid key) (hnew : Assoc.contains a.mounted key = false) :
    g.FitsArena (a.note key cid) where
  parts := ha.parts
  names := ha.names
  mounted other c hc := by
    rw [Arena.note] at hc
    by_cases hk : key = other
    · subst hk
      rw [Assoc.get?_set_self] at hc
      cases hc
      exact hname
    · rw [Assoc.get?_set_of_ne _ _ hk] at hc
      exact ha.mounted other c hc
  numbers node hnode := get?_set_of_new cid hnew (ha.numbers node hnode)
  once := ha.once

end Scene

theorem run_enter (render : Nat) (key : String) (m : Mounts) :
    (Mounts.enter render key).run.run m =
      if Assoc.contains (m.arena render).mounted key then (.error (.mountedTwice key), m)
      else match Assoc.get? m.registry.live key with
        | some cid =>
          (.ok (cid, m.before? render cid), m.update render fun a => a.note key cid)
        | none =>
          (.ok (m.registry.next, none),
            { m.update render fun a => a.note key m.registry.next with
              registry := { m.registry with next := m.registry.next + 1 } }) := by
  have hget : (get : Mounting Mounts).run.run m = (.ok m, m) := rfl
  rw [Mounts.enter, Sound.run_bind, hget]
  by_cases hmounted : Assoc.contains (m.arena render).mounted key = true
  · rw [if_pos hmounted]
    simp only [hmounted, if_true]
    rfl
  · rw [if_neg hmounted]
    simp only [hmounted, Bool.false_eq_true, if_false]
    cases hlive : Assoc.get? m.registry.live key with
    | some cid => rfl
    | none => rfl

theorem before?_spec {m : Mounts} {render cid : Nat} {node : Instance}
    (h : m.before? render cid = some node) :
    ∃ earlier, (m.arena render).previous = some earlier ∧ node ∈ (m.arena earlier).nodes ∧
      node.cid = cid := by
  obtain ⟨earlier, hearlier, hfind⟩ := Option.bind_eq_some_iff.mp h
  refine ⟨earlier, hearlier, List.mem_of_find?_eq_some hfind, ?_⟩
  simpa using List.find?_some hfind

/-- Entering fails, or opens a mount whose key was not mounted yet. -/
theorem enter_leads {h : Scene} (hfits : h.Fits) (render : Nat) (key : String) :
    (∃ e, (Mounts.enter render key).run.run h.mounts = (.error e, h.mounts)) ∨
      ∃ u cid node, (Mounts.enter render key).run.run h.mounts = (.ok (cid, node), u.mounts) ∧
        h ≤ u ∧ u.Fits ∧ Assoc.contains (h.mounts.arena render).mounted key = false ∧
          h.FilledBut u render key ∧ u.Open render key cid ∧ ∀ n ∈ node, u.Knows n.tree.parts := by
  rw [run_enter]
  by_cases hmounted : Assoc.contains (h.mounts.arena render).mounted key = true
  · rw [if_pos hmounted]
    exact .inl ⟨_, rfl⟩
  · rw [if_neg hmounted]
    have hnew := Bool.eq_false_iff.mpr hmounted
    right
    cases hlive : Assoc.get? h.mounts.registry.live key with
    | some cid =>
      obtain ⟨hname, -⟩ := hfits.live hlive
      let u : Scene := { h with mounts := h.mounts.update render fun a => a.note key cid }
      have hu : h ≤ u := Scene.le_of_note rfl (fun _ hp => hp) (fun _ _ hn => hn)
        (fun _ _ hb => hb) rfl rfl hnew
      refine ⟨u, cid, h.mounts.before? render cid, rfl, hu, ?_, hnew, Scene.filledBut_of_note rfl,
        Scene.open_of_note rfl hfits hnew hname (.inl hlive), ?_⟩
      · exact { hfits with
          arenas := Scene.fitsArena_of_update hfits hu.parts hu.names rfl
            (((hfits.arenas render).mono hu.parts hu.names).note hname hnew) }
      · intro n hn
        obtain ⟨earlier, -, hin, -⟩ := before?_spec hn
        exact (hfits.arenas earlier).parts n hin
    | none =>
      let u : Scene := { h with
        names := fun c k => h.names c k ∨ (c = h.mounts.registry.next ∧ k = key)
        births := fun c r => h.births c r ∨ (c = h.mounts.registry.next ∧ r = render)
        mounts := { h.mounts.update render fun a => a.note key h.mounts.registry.next with
          registry := { h.mounts.registry with next := h.mounts.registry.next + 1 } } }
      have hu : h ≤ u := Scene.le_of_note (u := u) rfl (fun _ hp => hp) (fun _ _ hn => .inl hn)
        (fun _ _ hb => .inl hb) rfl rfl hnew
      have hname : u.names h.mounts.registry.next key := .inr ⟨rfl, rfl⟩
      refine ⟨u, h.mounts.registry.next, none, rfl, hu, ?_, hnew,
        Scene.filledBut_of_note (u := u) rfl,
        Scene.open_of_note (u := u) rfl hfits hnew hname (.inr (.inr ⟨rfl, rfl⟩)), fun n hn => by
          cases hn⟩
      exact { hfits with
        name_lt := by
          rintro c k (hn | ⟨rfl, -⟩)
          · exact Nat.lt_succ_of_lt (hfits.name_lt hn)
          · exact Nat.lt_succ_self _
        name_eq := by
          rintro c k l (hn | ⟨rfl, rfl⟩) (hl | ⟨hc, rfl⟩)
          · exact hfits.name_eq hn hl
          · exact absurd (hc ▸ hfits.name_lt hn) (Nat.lt_irrefl _)
          · exact absurd (hfits.name_lt hl) (Nat.lt_irrefl _)
          · rfl
        birth_ge := by
          rintro c r (hb | ⟨rfl, -⟩)
          · exact hfits.birth_ge hb
          · exact hfits.base_le
        birth_lt := by
          rintro c r (hb | ⟨rfl, -⟩)
          · exact Nat.lt_succ_of_lt (hfits.birth_lt hb)
          · exact Nat.lt_succ_self _
        birth_eq := by
          rintro c r q (hb | ⟨rfl, rfl⟩) (hq | ⟨hc, rfl⟩)
          · exact hfits.birth_eq hb hq
          · exact absurd (hc ▸ hfits.birth_lt hb) (Nat.lt_irrefl _)
          · exact absurd (hfits.birth_lt hq) (Nat.lt_irrefl _)
          · rfl
        birth_new := by
          rintro c r k (hb | ⟨rfl, -⟩) (hn | ⟨hc, rfl⟩)
          · exact hfits.birth_new hb hn
          · exact absurd (hc ▸ hfits.birth_lt hb) (Nat.lt_irrefl _)
          · exact absurd (hfits.name_lt hn) (Nat.lt_irrefl _)
          · exact Option.isSome_eq_false_iff.mpr (Option.isNone_iff_eq_none.mpr hlive)
        base_le := Nat.le_succ_of_le hfits.base_le
        live := fun hk => ⟨.inl (hfits.live hk).1, (hfits.live hk).2⟩
        arenas := Scene.fitsArena_of_update hfits hu.parts hu.names rfl
          (((hfits.arenas render).mono hu.parts hu.names).note hname hnew) }

/-! ### Leaving -/

section Leave
variable (a : Arena) (cid : Nat) (key : String) (before : Option Instance) (tree : Tree)
  (assigns : Record Value) (owner : Option SlotOwner)

theorem leave_nodes : (a.leave cid key before tree assigns owner).nodes =
    a.nodes ++ [⟨cid, key, tree, assigns, a.childrenOf cid before⟩] := by
  cases owner <;> rfl

theorem leave_mounted : (a.leave cid key before tree assigns owner).mounted = a.mounted := by
  cases owner <;> rfl

theorem leave_previous : (a.leave cid key before tree assigns owner).previous = a.previous := by
  cases owner <;> rfl

end Leave

namespace Scene

theorem FitsArena.congr {g : Scene} {a b : Arena} (ha : g.FitsArena a) (hn : b.nodes = a.nodes)
    (hm : b.mounted = a.mounted) : g.FitsArena b where
  parts := hn ▸ ha.parts
  names := hn ▸ ha.names
  mounted := hm ▸ ha.mounted
  numbers := hn ▸ hm ▸ ha.numbers
  once := hn ▸ ha.once

theorem FitsArena.append {g : Scene} {a b : Arena} (ha : g.FitsArena a) {node : Instance}
    (hnodes : b.nodes = a.nodes ++ [node]) (hparts : g.Knows node.tree.parts)
    (hname : g.names node.cid node.key) (habsent : ∀ n ∈ a.nodes, n.key ≠ node.key)
    (hmounted : ∀ key cid, Assoc.get? b.mounted key = some cid → g.names cid key)
    (hmore : ∀ key cid, Assoc.get? a.mounted key = some cid → Assoc.get? b.mounted key = some cid)
    (hkey : Assoc.get? b.mounted node.key = some node.cid) : g.FitsArena b where
  parts n hn := by
    rw [hnodes] at hn
    rcases List.mem_append.mp hn with hn | hn
    · exact ha.parts n hn
    · cases List.mem_singleton.mp hn
      exact hparts
  names n hn := by
    rw [hnodes] at hn
    rcases List.mem_append.mp hn with hn | hn
    · exact ha.names n hn
    · cases List.mem_singleton.mp hn
      exact hname
  mounted := hmounted
  numbers n hn := by
    rw [hnodes] at hn
    rcases List.mem_append.mp hn with hn | hn
    · exact hmore _ _ (ha.numbers n hn)
    · cases List.mem_singleton.mp hn
      exact hkey
  once := by
    rw [hnodes, List.map_append]
    refine List.nodup_append.mpr ⟨ha.once, by simp, ?_⟩
    intro x hx y hy
    obtain ⟨n, hn, rfl⟩ := List.mem_map.mp hx
    cases List.mem_singleton.mp hy
    exact habsent n hn

end Scene

section Leaving
variable {k h : Scene} {render cid : Nat} {key : String} {tree : Tree} {before : Option Instance}
  {assigns : Record Value} {owner : Option SlotOwner}

/-- The scene where a render has left a mount. -/
def Scene.left (h : Scene) (render cid : Nat) (key : String) (before : Option Instance)
    (tree : Tree) (assigns : Record Value) (owner : Option SlotOwner) : Scene :=
  { h with mounts :=
      h.mounts.update render fun a => a.leave cid key before tree assigns owner }

theorem Scene.left_previous (other : Nat) :
    ((h.left render cid key before tree assigns owner).mounts.arena other).previous =
      (h.mounts.arena other).previous :=
  Scene.field_update (fun a => leave_previous a cid key before tree assigns owner) h.mounts
    render other

theorem Scene.left_mounted (other : Nat) :
    ((h.left render cid key before tree assigns owner).mounts.arena other).mounted =
      (h.mounts.arena other).mounted :=
  Scene.field_update (fun a => leave_mounted a cid key before tree assigns owner) h.mounts
    render other

/-- Leaving a mount adds its component to the render, and nothing else anywhere. -/
theorem Scene.left_nodes (h : Scene) (render cid : Nat) (key : String) (before : Option Instance)
    (tree : Tree) (assigns : Record Value) (owner : Option SlotOwner) (other : Nat) :
    ((h.left render cid key before tree assigns owner).mounts.arena other).nodes =
        (h.mounts.arena other).nodes ∨
      other = render ∧ render < h.mounts.renders.length ∧ ∃ n : Instance, n.cid = cid ∧
        n.key = key ∧ n.tree = tree ∧
          ((h.left render cid key before tree assigns owner).mounts.arena other).nodes =
            (h.mounts.arena other).nodes ++ [n] := by
  have hother : (h.left render cid key before tree assigns owner).mounts.arena other = _ :=
    Scene.arena_update h.mounts render other _
  by_cases hr : other = render ∧ render < h.mounts.renders.length
  · rw [if_pos hr] at hother
    obtain ⟨rfl, hlt⟩ := hr
    refine .inr ⟨rfl, hlt, ⟨cid, key, tree, assigns, (h.mounts.arena other).childrenOf cid before⟩,
      rfl, rfl, rfl, ?_⟩
    rw [hother]
    exact leave_nodes _ cid key before tree assigns owner
  · rw [if_neg hr] at hother
    exact .inl (congrArg Arena.nodes hother)

theorem Scene.Origin.left {other : Nat} {n : Instance} (ho : h.Origin other n) :
    (h.left render cid key before tree assigns owner).Origin other n := by
  rcases ho with hlive | hbirth | ⟨earlier, hearlier, hn⟩
  · exact .inl hlive
  · exact .inr (.inl hbirth)
  · refine .inr (.inr ⟨earlier, (Scene.left_previous other).trans hearlier, ?_⟩)
    rcases h.left_nodes render cid key before tree assigns owner earlier with
      he | ⟨-, -, _, -, -, -, he⟩
    · exact he ▸ hn
    · exact he ▸ List.mem_append_left _ hn

/-- The mount that is left was not there in the scene before it was entered. -/
theorem Scene.le_left (hkh : k ≤ h)
    (hnew : Assoc.contains (k.mounts.arena render).mounted key = false)
    (ho : h.Open render key cid) : k ≤ h.left render cid key before tree assigns owner := by
  refine ⟨hkh.parts, hkh.names, hkh.births, hkh.base, hkh.live,
    (Scene.length_of_update (h := h.left render cid key before tree assigns owner) rfl).trans
      hkh.renders, fun other => ?_⟩
  have hother := hkh.arenas other
  refine ⟨(Scene.left_previous other).trans hother.previous, fun x c hx => ?_, ?_⟩
  · rw [Scene.left_mounted]
    exact hother.numbers x c hx
  · obtain ⟨more, hmore, hall⟩ := hother.nodes
    rcases h.left_nodes render cid key before tree assigns owner other with
      he | ⟨rfl, -, n, hcid, hkey, -, he⟩
    · exact ⟨more, he.trans hmore, fun x hx => ⟨(hall x hx).1, (hall x hx).2.left⟩⟩
    · refine ⟨more ++ [n], by rw [he, hmore, List.append_assoc], fun x hx => ?_⟩
      rcases List.mem_append.mp hx with hx | hx
      · exact ⟨(hall x hx).1, (hall x hx).2.left⟩
      · cases List.mem_singleton.mp hx
        rw [← hkey] at hnew
        refine ⟨hnew, ?_⟩
        rcases ho.origin with hlive | hbirth
        · rw [← hkey, ← hcid] at hlive
          exact .inl hlive
        · rw [← hcid] at hbirth
          exact .inr (.inl hbirth)

theorem Scene.Fits.left (hfits : h.Fits) (ho : h.Open render key cid) (ht : h.Knows tree.parts) :
    (h.left render cid key before tree assigns owner).Fits := by
  refine { hfits with arenas := fun other => ?_ }
  have hold : (h.left render cid key before tree assigns owner).FitsArena (h.mounts.arena other) :=
    (hfits.arenas other).mono (fun _ hp => hp) fun _ _ hn => hn
  rcases h.left_nodes render cid key before tree assigns owner other with
    he | ⟨rfl, hlt, n, hcid, hkey, htree, he⟩
  · exact hold.congr he (Scene.left_mounted other)
  · refine hold.append he ?_ ?_ ?_ ?_ ?_ ?_
    · rw [htree]
      exact ht
    · rw [hcid, hkey]
      exact ho.name
    · rw [hkey]
      exact ho.absent
    · rw [Scene.left_mounted]
      exact hold.mounted
    · rw [Scene.left_mounted]
      exact fun _ _ hx => hx
    · rw [Scene.left_mounted, hkey, hcid]
      exact ho.mounted hlt

/-- The component of the mount that was open has come to its render. -/
theorem Scene.filled_left (hkh : k.FilledBut h render key) :
    k.Filled (h.left render cid key before tree assigns owner) := by
  intro other name hmounted
  rw [Scene.left_mounted] at hmounted
  have hnodes := h.left_nodes render cid key before tree assigns owner other
  rcases hkh other name hmounted with hold | ⟨node, hn, hname⟩ | ⟨rfl, rfl⟩
  · exact .inl hold
  · refine .inr ⟨node, ?_, hname⟩
    rcases hnodes with he | ⟨-, -, _, -, -, -, he⟩
    · exact he ▸ hn
    · exact he ▸ List.mem_append_left _ hn
  · right
    have hlt : other < h.mounts.renders.length := by
      refine Nat.lt_of_not_le fun hnone => ?_
      rw [Scene.arena_of_length_le hnone] at hmounted
      cases hmounted
    have hother : (h.left other cid name before tree assigns owner).mounts.arena other = _ :=
      Scene.arena_update h.mounts other other _
    rw [if_pos ⟨rfl, hlt⟩] at hother
    rw [hother, leave_nodes]
    exact ⟨_, List.mem_append_right _ (List.mem_singleton_self _), rfl⟩

end Leaving

/-- A mount that is left closes what was opened when it was entered. -/
theorem sound_leave {k g : Scene} {render cid : Nat} {key : String} (hkg : k ≤ g)
    (hnew : Assoc.contains (k.mounts.arena render).mounted key = false)
    (hfill : k.FilledBut g render key) (ho : g.Open render key cid) {tree : Tree} (ht : g.Knows tree.parts)
    (before : Option Instance) (assigns : Record Value) (owner : Option SlotOwner) :
    SoundOver k g (modify fun s : RenderState => { s with
      mounts := s.mounts.update render fun a => a.leave cid key before tree assigns owner } :
        Render PUnit) fun _ _ => True := by
  intro h s hle hmore hfits hs
  obtain ⟨m, journal⟩ := s
  obtain rfl : m = h.mounts := hs
  have hopen := ho.mono hle
  exact ⟨h.left render cid key before tree assigns owner,
    Scene.le_left (Scene.le_trans hkg hle) hnew hopen, hfits.left hopen (ht.mono hle), rfl,
    fun _ _ => ⟨Scene.filled_left (hfill.trans hmore hle), trivial⟩⟩

/-! ### Keeping -/

theorem keep_leads {h : Scene} (hfits : h.Fits) {render earlier : Nat} {node : Instance}
    (hprevious : (h.mounts.arena render).previous = some earlier)
    (hin : node ∈ (h.mounts.arena earlier).nodes)
    (hnew : Assoc.contains (h.mounts.arena render).mounted node.key = false) :
    ∃ u : Scene, u.mounts = h.mounts.update render (fun a => a.keep node) ∧ h ≤ u ∧ u.Fits ∧
      h.Filled u := by
  let f : Arena → Arena := fun a => a.keep node
  let u : Scene := { h with mounts := h.mounts.update render f }
  have hprev : ∀ other, (u.mounts.arena other).previous = (h.mounts.arena other).previous :=
    Scene.field_update (f := f) (fun _ => rfl) h.mounts render
  have hsub : ∀ other n, n ∈ (h.mounts.arena other).nodes → n ∈ (u.mounts.arena other).nodes := by
    intro other n hn
    have hother : u.mounts.arena other = _ := Scene.arena_update h.mounts render other f
    rw [hother]
    split
    · rename_i hr
      exact List.mem_append_left _ (hr.1 ▸ hn)
    · exact hn
  have hfit := hfits.arenas render
  have hname := (hfits.arenas earlier).names node hin
  refine ⟨u, rfl, ?_, ?_, fun other key hk => ?_⟩
  · refine ⟨fun _ hp => hp, fun _ _ hn => hn, fun _ _ hb => hb, rfl, rfl,
      Scene.length_of_update (h := u) rfl, Scene.ArenaLe.of_update rfl fun hlt he => ?_⟩
    refine ⟨hprev render, fun key cid hk => ?_, [node], ?_, fun n hn => ?_⟩
    · rw [he]
      exact get?_set_of_new _ hnew hk
    · rw [he]
      rfl
    · cases List.mem_singleton.mp hn
      exact ⟨hnew, .inr (.inr ⟨earlier, (hprev render).trans hprevious, hsub earlier node hin⟩)⟩
  · have hp : ∀ p, h.parts p → u.parts p := fun _ hp => hp
    have hn : ∀ cid key, h.names cid key → u.names cid key := fun _ _ hn => hn
    have hold : u.FitsArena (h.mounts.arena render) := hfit.mono hp hn
    refine { hfits with arenas := Scene.fitsArena_of_update hfits hp hn rfl ?_ }
    refine hold.append rfl ((hfits.arenas earlier).parts node hin) hname (fun n hn hkey => ?_)
      (hold.note hname hnew).mounted (fun _ _ hk => get?_set_of_new _ hnew hk)
      (Assoc.get?_set_self _ _ _)
    have hkeys := hfit.keys n hn
    rw [hkey, hnew] at hkeys
    cases hkeys
  · have hother : u.mounts.arena other = _ := Scene.arena_update h.mounts render other f
    rw [hother] at hk ⊢
    split at hk
    · rename_i hr
      rw [if_pos hr]
      rcases contains_of_set hk with hold | rfl
      · exact .inl (hr.1 ▸ hold)
      · exact .inr ⟨node, List.mem_append_right _ (List.mem_singleton_self node), rfl⟩
    · exact .inl hk

theorem sound_retainComponent (g : Scene) (render depth cid : Nat) :
    Sound g (Mounts.retainComponent render depth cid) fun _ _ => True := by
  induction depth generalizing g cid with
  | zero => exact Sound.throw _
  | succ depth ih =>
    intro h m hle hfits hm
    obtain rfl : m = h.mounts := hm
    have hget : (get : Mounting Mounts).run.run h.mounts = (.ok h.mounts, h.mounts) := rfl
    rw [Leads, Mounts.retainComponent, Sound.run_bind, hget]
    cases hbefore : h.mounts.before? render cid with
    | none =>
      simp only [hbefore]
      exact ⟨h, Scene.le_refl h, hfits, rfl, fun _ hok => by cases hok⟩
    | some node =>
      simp only [hbefore]
      obtain ⟨earlier, hprevious, hin, -⟩ := before?_spec hbefore
      by_cases hmounted : ((h.mounts.arena render).find? cid).isSome ||
          Assoc.contains (h.mounts.arena render).mounted node.key
      · simp only [hmounted, if_true]
        exact ⟨h, Scene.le_refl h, hfits, rfl, fun _ hok => by cases hok⟩
      · simp only [hmounted, Bool.false_eq_true, if_false]
        have hnew : Assoc.contains (h.mounts.arena render).mounted node.key = false := by
          simp only [Bool.or_eq_true, not_or, Bool.not_eq_true] at hmounted
          exact hmounted.2
        obtain ⟨u, hmounts, hu, hufits, hfill⟩ := keep_leads hfits hprevious hin hnew
        have hrefs : Sound u (node.tree.refs.forM (Mounts.retainComponent render depth))
            fun _ _ => True := Sound.forM fun x => ih u x
        obtain ⟨v, hv, hvfits, hvs, hok⟩ := hrefs u u.mounts (Scene.le_refl u) hufits rfl
        rw [hmounts] at hvs hok
        exact ⟨v, Scene.le_trans hu hv, hvfits, hvs,
          fun a ha => (hok a ha).imp_left fun hmore => hfill.trans hmore hv⟩

theorem sound_retain (g : Scene) (render : Nat) (dynamic : Dynamic) :
    Sound g (Mounts.retain render dynamic) fun _ _ => True := by
  have hget : Sound g (get : Mounting Mounts) fun _ _ => True :=
    Sound.still (fun _ => rfl) fun _ _ _ _ _ => trivial
  exact hget.bind fun u m _ _ => Sound.forM fun cid => sound_retainComponent u render _ cid

end LiveTemplate
