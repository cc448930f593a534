import LiveTemplate.Proofs.Realm.Members
import LiveTemplate.Proofs.Render.Soundness
import LiveTemplate.Proofs.Snapshot.Page
import LiveTemplate.TemplateUnit

/-!
Where calls stand. A render comes to each site once, so that a key which is mounted twice is that of
an explicit id, or it can be read as that of two sites. Keys can be read in one way only where the
names of slots keep clear of marks and do not end in a digit, as the index of an entry comes next.
-/

namespace LiveTemplate

set_option autoImplicit false

/-! ### Sites and keys -/

/-- A step of the way from a template to one of its calls. -/
inductive Site.Step where
  | plan (index : Nat)
  | branch (index : Nat)
  | row (index : Nat)
  | entry (slot : String) (index : Nat)
deriving DecidableEq, Repr

/-- Where a plan stands: the way to it from the template of a page or of a component. -/
inductive Site where
  | root
  | component (cid : Nat)
  | step (site : Site) (step : Site.Step)
deriving DecidableEq, Repr

/-- Characters that part the steps of a way and the name of a component from each other. -/
def isMark (c : Char) : Bool := c ∈ ['/', '?', ':', '>', '#']

def isUnmarked (s : String) : Bool := s.toList.all fun c => !isMark c

/-- A slot whose name stays apart from the index of an entry. -/
def isClearSlot (slot : String) : Bool :=
  isUnmarked slot && !(slot.toList.getLast?.any Char.isDigit)

namespace Site

namespace Step

def mark : Step → Char
  | plan _ => '/'
  | branch _ => '?'
  | row _ => ':'
  | entry _ _ => '>'

def index : Step → Nat
  | plan i | branch i | row i | entry _ i => i

/-- What is written behind the mark. -/
def tail : Step → String
  | plan i | branch i | row i => toString i
  | entry slot i => slot ++ toString i

def slot? : Step → Option String
  | entry slot _ => some slot
  | _ => none

end Step

/-- A site as positions tell it. -/
def text : Site → String
  | root => "root"
  | component cid => "c" ++ toString cid
  | step p s => p.text ++ s.mark.toString ++ s.tail

/-- The slots whose entries are on the way. -/
def slots : Site → List String
  | root | component _ => []
  | step p s => p.slots ++ s.slot?.toList

/-- The component whose template the way starts from. -/
def cid? : Site → Option Nat
  | root => none
  | component cid => some cid
  | step p _ => p.cid?

/-- The site itself and those on the way to it, the last first. -/
def chain : Site → List Site
  | root => [root]
  | component cid => [component cid]
  | step p s => step p s :: p.chain

def depth : Site → Nat
  | root | component _ => 0
  | step p _ => p.depth + 1

end Site

/-- What tells a call from others: an explicit id with the type and the text of its value, or else
its site. -/
inductive MountKey where
  | explicit (name typeName text : String)
  | sited (site : Site) (name : String)
deriving DecidableEq, Repr

namespace MountKey

def text : MountKey → String
  | explicit name typeName text => name ++ "#" ++ typeName ++ ":" ++ text
  | sited site name => site.text ++ ":" ++ name

def site? : MountKey → Option Site
  | explicit _ _ _ => none
  | sited site _ => some site

/-- Whether the text of a key keeps its parts apart. -/
def isClear : MountKey → Bool
  | explicit name typeName _ => isUnmarked name && isUnmarked typeName
  | sited site name => site.slots.all isClearSlot && isUnmarked name

end MountKey

/-! ### Reading keys -/

theorem isUnmarked_append {s t : String} :
    isUnmarked (s ++ t) = (isUnmarked s && isUnmarked t) := by
  rw [isUnmarked, String.toList_append, List.all_append]
  rfl

theorem isUnmarked_toString (n : Nat) : isUnmarked (toString n) = true := by
  rw [isUnmarked, List.all_eq_true]
  intro c hc
  have hdigit := isDigit_of_mem_toString hc
  by_contra hmark
  simp only [isMark, List.mem_cons, List.not_mem_nil, or_false, Bool.not_eq_true',
    decide_eq_false_iff_not, not_not] at hmark
  rcases hmark with rfl | rfl | rfl | rfl | rfl <;> revert hdigit <;> decide

theorem not_isMark_of_mem {s : String} (h : isUnmarked s = true) {c : Char} (hc : c ∈ s.toList) :
    isMark c = false := by
  have hall := List.all_eq_true.mp h c hc
  simpa using hall

/-- A text is split by its last mark in one way. -/
theorem split_last {front front' back back' : List Char} {m m' : Char} (hm : isMark m = true)
    (hm' : isMark m' = true) (hback : ∀ c ∈ back, isMark c = false)
    (hback' : ∀ c ∈ back', isMark c = false)
    (h : front ++ m :: back = front' ++ m' :: back') : front = front' ∧ m = m' ∧ back = back' := by
  rcases List.append_eq_append_iff.mp h with ⟨between, rfl, hrest⟩ | ⟨between, rfl, hrest⟩
  · cases between with
    | nil =>
      obtain ⟨rfl, rfl⟩ := List.cons.inj hrest
      exact ⟨(List.append_nil _).symm, rfl, rfl⟩
    | cons c rest =>
      obtain ⟨-, rfl⟩ := List.cons.inj hrest
      have hmark := hback m' (List.mem_append_right rest List.mem_cons_self)
      rw [hm'] at hmark
      cases hmark
  · cases between with
    | nil =>
      obtain ⟨rfl, rfl⟩ := List.cons.inj hrest
      exact ⟨List.append_nil _, rfl, rfl⟩
    | cons c rest =>
      obtain ⟨-, rfl⟩ := List.cons.inj hrest
      have hmark := hback' m (List.mem_append_right rest List.mem_cons_self)
      rw [hm] at hmark
      cases hmark

/-- So it is by its first one. -/
theorem split_first {front front' back back' : List Char} {m m' : Char} (hm : isMark m = true)
    (hm' : isMark m' = true) (hfront : ∀ c ∈ front, isMark c = false)
    (hfront' : ∀ c ∈ front', isMark c = false)
    (h : front ++ m :: back = front' ++ m' :: back') : front = front' ∧ m = m' ∧ back = back' := by
  have hreverse := congrArg List.reverse h
  simp only [List.reverse_append, List.reverse_cons, List.append_assoc, List.singleton_append]
    at hreverse
  obtain ⟨hback, hmark, hends⟩ := split_last hm hm' (fun c hc => hfront c (List.mem_reverse.mp hc))
    (fun c hc => hfront' c (List.mem_reverse.mp hc)) hreverse
  exact ⟨List.reverse_inj.mp hends, hmark, List.reverse_inj.mp hback⟩

/-- Digits behind a text that does not end in one. -/
theorem split_digits {front front' digits digits' : List Char}
    (hfront : front.getLast?.any Char.isDigit = false)
    (hfront' : front'.getLast?.any Char.isDigit = false) (hdigits : ∀ c ∈ digits, c.isDigit = true)
    (hdigits' : ∀ c ∈ digits', c.isDigit = true) (h : front ++ digits = front' ++ digits') :
    front = front' ∧ digits = digits' := by
  rcases List.append_eq_append_iff.mp h with ⟨between, rfl, rfl⟩ | ⟨between, rfl, rfl⟩
  · rcases List.eq_nil_or_concat between with rfl | ⟨rest, c, rfl⟩
    · exact ⟨(List.append_nil _).symm, rfl⟩
    · have hdigit : c.isDigit = true := hdigits c (by simp)
      rw [List.concat_eq_append, ← List.append_assoc, List.getLast?_concat, Option.any_some,
        hdigit] at hfront'
      cases hfront'
  · rcases List.eq_nil_or_concat between with rfl | ⟨rest, c, rfl⟩
    · exact ⟨List.append_nil _, rfl⟩
    · have hdigit : c.isDigit = true := hdigits' c (by simp)
      rw [List.concat_eq_append, ← List.append_assoc, List.getLast?_concat, Option.any_some,
        hdigit] at hfront
      cases hfront

theorem toString_inj {m n : Nat} : toString m = toString n ↔ m = n := by
  refine ⟨fun h => ?_, congrArg toString⟩
  have hdigits : Nat.toDigits 10 m = Nat.toDigits 10 n := String.ofList_injective h
  rw [← Nat.ofDigitChars_toDigits (b := 10) (n := m) (by decide) (by decide), hdigits,
    Nat.ofDigitChars_toDigits (by decide) (by decide)]

namespace Site

theorem Step.isMark_mark (s : Step) : isMark s.mark = true := by cases s <;> rfl

/-- The slots of steps stay clear. -/
def Step.Clear (s : Step) : Prop := ∀ slot ∈ s.slot?, isClearSlot slot = true

def Clear (p : Site) : Prop := ∀ slot ∈ p.slots, isClearSlot slot = true

theorem clear_step {p : Site} {s : Step} : (step p s).Clear ↔ p.Clear ∧ s.Clear := by
  simp only [Clear, Step.Clear, slots, List.mem_append, Option.mem_toList, or_imp, forall_and,
    Option.mem_def]

theorem Step.isUnmarked_tail {s : Step} (h : s.Clear) : isUnmarked s.tail = true := by
  cases s with
  | entry slot i =>
    have hslot := (Bool.and_eq_true_iff.mp (h slot rfl)).1
    rw [tail, isUnmarked_append, hslot, isUnmarked_toString]
    rfl
  | plan i => exact isUnmarked_toString i
  | branch i => exact isUnmarked_toString i
  | row i => exact isUnmarked_toString i

/-- A step is told by its mark and what is behind it. -/
theorem Step.eq_of_text {s t : Step} (hs : s.Clear) (ht : t.Clear) (hmark : s.mark = t.mark)
    (htail : s.tail = t.tail) : s = t := by
  cases s <;> cases t <;> simp [mark] at hmark
  case plan.plan => exact congrArg plan (toString_inj.mp htail)
  case branch.branch => exact congrArg branch (toString_inj.mp htail)
  case row.row => exact congrArg row (toString_inj.mp htail)
  case entry.entry slot i other j =>
    have hslot := (Bool.and_eq_true_iff.mp (hs slot rfl)).2
    have hother := (Bool.and_eq_true_iff.mp (ht other rfl)).2
    rw [Bool.not_eq_true'] at hslot hother
    have hlists := congrArg String.toList htail
    rw [tail, tail, String.toList_append, String.toList_append] at hlists
    obtain ⟨hname, hindex⟩ := split_digits hslot hother (fun _ => isDigit_of_mem_toString)
      (fun _ => isDigit_of_mem_toString) hlists
    rw [String.toList_inj] at hname hindex
    rw [hname, toString_inj.mp hindex]

theorem toList_text_step (p : Site) (s : Step) :
    (step p s).text.toList = p.text.toList ++ s.mark :: s.tail.toList := by
  rw [text, String.toList_append, String.toList_append, List.append_assoc, Char.toString,
    String.toList_singleton, List.singleton_append]

/-- Where slots are clear, positions tell sites. -/
theorem text_injective : ∀ {p q : Site}, p.Clear → q.Clear → p.text = q.text → p = q
  | root, root, _, _, _ => rfl
  | root, component cid, _, _, h => by
    have hlists := congrArg String.toList h
    rw [text, text, String.toList_append] at hlists
    cases hlists
  | component cid, root, _, _, h => by
    have hlists := congrArg String.toList h
    rw [text, text, String.toList_append] at hlists
    cases hlists
  | component cid, component other, _, _, h => by
    rw [text, text, String.append_right_inj, toString_inj] at h
    rw [h]
  | step p s, root, _, _, h => absurd h (text_step_ne (by decide))
  | step p s, component cid, _, _, h => absurd h (text_step_ne (isUnmarked_component cid))
  | root, step q t, _, _, h => absurd h.symm (text_step_ne (by decide))
  | component cid, step q t, _, _, h => absurd h.symm (text_step_ne (isUnmarked_component cid))
  | step p s, step q t, hp, hq, h => by
    rw [clear_step] at hp hq
    have hlists := congrArg String.toList h
    rw [toList_text_step, toList_text_step] at hlists
    obtain ⟨htext, hmark, htail⟩ := split_last s.isMark_mark t.isMark_mark
      (fun _ => not_isMark_of_mem (Step.isUnmarked_tail hp.2))
      (fun _ => not_isMark_of_mem (Step.isUnmarked_tail hq.2)) hlists
    rw [String.toList_inj] at htext htail
    rw [text_injective hp.1 hq.1 htext, Step.eq_of_text hp.2 hq.2 hmark htail]
where
  isUnmarked_component (cid : Nat) : isUnmarked (component cid).text = true := by
    rw [text, isUnmarked_append, isUnmarked_toString]
    decide
  text_step_ne {p : Site} {s : Step} {other : String} (h : isUnmarked other = true) :
      (step p s).text ≠ other := by
    rintro rfl
    have hmark := not_isMark_of_mem h (c := s.mark) (by simp [toList_text_step])
    rw [s.isMark_mark] at hmark
    cases hmark

end Site

namespace MountKey

/-- The mark of an explicit id stands in no clear site. -/
theorem not_mem_text {p : Site} (hp : p.Clear) : '#' ∉ p.text.toList := by
  induction p with
  | root => decide
  | component cid =>
    intro hmem
    have hmark := not_isMark_of_mem (Site.text_injective.isUnmarked_component cid) hmem
    revert hmark
    decide
  | step p s ih =>
    rw [Site.clear_step] at hp
    rw [Site.toList_text_step, List.mem_append, List.mem_cons, not_or, not_or]
    refine ⟨ih hp.1, fun hmark => by cases s <;> simp [Site.Step.mark] at hmark, fun hmem => ?_⟩
    have hmark := not_isMark_of_mem (Site.Step.isUnmarked_tail hp.2) hmem
    revert hmark
    decide

theorem toList_text_explicit (name typeName text : String) :
    (explicit name typeName text).text.toList =
      name.toList ++ '#' :: (typeName.toList ++ ':' :: text.toList) := by
  simp [MountKey.text]

theorem toList_text_sited (p : Site) (name : String) :
    (sited p name).text.toList = p.text.toList ++ ':' :: name.toList := by
  simp [MountKey.text]

theorem text_explicit_ne_sited {name typeName text other : String} {p : Site}
    (h : (sited p other).isClear = true) : (explicit name typeName text).text ≠ (sited p other).text := by
  intro hsame
  have hmem : '#' ∈ (sited p other).text.toList := by
    rw [← hsame, toList_text_explicit]
    simp
  rw [isClear, Bool.and_eq_true, List.all_eq_true] at h
  rw [toList_text_sited, List.mem_append, List.mem_cons] at hmem
  rcases hmem with hmem | hmark | hmem
  · exact not_mem_text h.1 hmem
  · revert hmark
    decide
  · have hmark := not_isMark_of_mem h.2 hmem
    revert hmark
    decide

/-- Clear keys are told by their texts. -/
theorem text_injective {a b : MountKey} (ha : a.isClear = true) (hb : b.isClear = true)
    (h : a.text = b.text) : a = b := by
  match a, b with
  | explicit name typeName text, explicit name' typeName' text' =>
    rw [isClear, Bool.and_eq_true] at ha hb
    have hlists := congrArg String.toList h
    rw [toList_text_explicit, toList_text_explicit] at hlists
    obtain ⟨hname, -, hrest⟩ := split_first rfl rfl (fun _ => not_isMark_of_mem ha.1)
      (fun _ => not_isMark_of_mem hb.1) hlists
    obtain ⟨htype, -, htext⟩ := split_first rfl rfl (fun _ => not_isMark_of_mem ha.2)
      (fun _ => not_isMark_of_mem hb.2) hrest
    rw [String.toList_inj.mp hname, String.toList_inj.mp htype, String.toList_inj.mp htext]
  | explicit _ _ _, sited _ _ => exact absurd h (text_explicit_ne_sited hb)
  | sited _ _, explicit _ _ _ => exact absurd h.symm (text_explicit_ne_sited ha)
  | sited p name, sited q other =>
    rw [isClear, Bool.and_eq_true, List.all_eq_true] at ha hb
    have hlists := congrArg String.toList h
    rw [toList_text_sited, toList_text_sited] at hlists
    obtain ⟨htext, -, hname⟩ := split_last rfl rfl (fun _ => not_isMark_of_mem ha.2)
      (fun _ => not_isMark_of_mem hb.2) hlists
    rw [Site.text_injective ha.1 hb.1 (String.toList_inj.mp htext), String.toList_inj.mp hname]

end MountKey

/-! ### Regions -/

namespace Site

/-- The site itself and those on ways through it. -/
def Under (p q : Site) : Prop := p ∈ q.chain

/-- The sites on ways through a site whose next step has some index or a later one. -/
def After (p : Site) (index : Nat) (q : Site) : Prop :=
  ∃ s : Step, index ≤ s.index ∧ (step p s).Under q

theorem self_mem_chain (p : Site) : p ∈ p.chain := by
  cases p <;> simp [chain]

theorem Under.trans {p q r : Site} (hpq : p.Under q) (hqr : q.Under r) : p.Under r := by
  induction r with
  | root => exact List.mem_singleton.mp hqr ▸ hpq
  | component cid => exact List.mem_singleton.mp hqr ▸ hpq
  | step r s ih =>
    rcases List.mem_cons.mp hqr with rfl | hqr
    · exact hpq
    · exact List.mem_cons_of_mem _ (ih hqr)

theorem under_step (p : Site) (s : Step) : p.Under (step p s) :=
  List.mem_cons_of_mem _ p.self_mem_chain

theorem After.under {p q : Site} {index : Nat} (h : p.After index q) : p.Under q := by
  obtain ⟨s, -, hs⟩ := h
  exact (p.under_step s).trans hs

theorem After.mono {p q : Site} {index later : Nat} (h : p.After later q) (hle : index ≤ later) :
    p.After index q := by
  obtain ⟨s, hindex, hs⟩ := h
  exact ⟨s, Nat.le_trans hle hindex, hs⟩

theorem Under.cid? {p q : Site} (h : p.Under q) : q.cid? = p.cid? := by
  induction q with
  | root => rw [List.mem_singleton.mp h]
  | component cid => rw [List.mem_singleton.mp h]
  | step q s ih =>
    rcases List.mem_cons.mp h with rfl | h
    · rfl
    · exact ih h

theorem Under.depth_le {p q : Site} (h : p.Under q) : p.depth ≤ q.depth := by
  induction q with
  | root => rw [List.mem_singleton.mp h]
  | component cid => rw [List.mem_singleton.mp h]
  | step q s ih =>
    rcases List.mem_cons.mp h with rfl | h
    · exact Nat.le_refl _
    · exact Nat.le_succ_of_le (ih h)

/-- On one way there is one site of each depth. -/
theorem Under.eq_of_depth {p p' q : Site} (h : p.Under q) (h' : p'.Under q)
    (hdepth : p.depth = p'.depth) : p = p' := by
  induction q with
  | root => rw [List.mem_singleton.mp h, List.mem_singleton.mp h']
  | component cid => rw [List.mem_singleton.mp h, List.mem_singleton.mp h']
  | step q s ih =>
    have hdeeper : q.depth < (step q s).depth := Nat.lt_succ_self _
    rcases List.mem_cons.mp h with rfl | h <;> rcases List.mem_cons.mp h' with rfl | h'
    · rfl
    · have hle := Under.depth_le h'
      omega
    · have hle := Under.depth_le h
      omega
    · exact ih h h'

/-- Steps of one site part the ways through it. -/
theorem not_after_of_under {p q : Site} {s : Step} {index : Nat} (hindex : s.index < index)
    (h : (step p s).Under q) : ¬ p.After index q := by
  rintro ⟨t, ht, hunder⟩
  have hsame := (Site.step.inj (h.eq_of_depth hunder rfl)).2
  rw [hsame] at hindex
  exact absurd ht (Nat.not_le.mpr hindex)

end Site

/-! ### Visits -/

def MountKey.name : MountKey → String
  | explicit name _ _ | sited _ name => name

/-- A key that a call of some component may have. -/
structure Resolver.Gives (resolve : Resolver) (k : MountKey) : Prop where
  named : ∃ unit target, ∃ d ∈ resolve unit target, d.name = k.name
  typed : ∀ name typeName text, k = .explicit name typeName text → ∃ v : Value, v.typeName = typeName

/-- A text is the key of two calls: both have an explicit id, or the keys differ. -/
def Resolver.Doubles (resolve : Resolver) (key : String) : Prop :=
  ∃ a b : MountKey, resolve.Gives a ∧ resolve.Gives b ∧ a.text = key ∧ b.text = key ∧
    (a = b → a.site? = none)

/-- All that was mounted so far has an explicit id or stands at one of the sites that were visited. -/
structure Mounts.Visited (resolve : Resolver) (visited : Site → Prop) (m : Mounts) : Prop where
  live : m.registry.live = []
  keys : ∀ render key, Assoc.contains (m.arena render).mounted key = true →
    ∃ k : MountKey, k.text = key ∧ resolve.Gives k ∧ ∀ p ∈ k.site?, visited p
  older : ∀ p, visited p → ∀ cid ∈ p.cid?, cid < m.registry.next

/-- A step of a render visits no sites but those of a region and those in new components. If a key is
mounted twice on the way, then it is that of two calls. -/
def Visits (resolve : Resolver) (region : Site → Prop) {α : Type} (x : Render α) : Prop :=
  ∀ (s : RenderState) (visited : Site → Prop), s.mounts.Visited resolve visited →
    (∀ p, region p → ¬ visited p ∧ ∀ cid ∈ p.cid?, cid < s.mounts.registry.next) →
      (∃ now, (x.run.run s).2.mounts.Visited resolve now ∧
        s.mounts.registry.next ≤ (x.run.run s).2.mounts.registry.next ∧
        ∀ p, now p → visited p ∨ region p ∨ ∃ cid ∈ p.cid?, s.mounts.registry.next ≤ cid) ∧
      ∀ key, (x.run.run s).1 = .error (.tree (.mountedTwice key)) → resolve.Doubles key

/-- No site at all. -/
def Site.Nowhere : Site → Prop := fun _ => False

namespace Visits

variable {resolve : Resolver} {region more : Site → Prop} {α β : Type} {x : Render α}

theorem mono (hx : Visits resolve region x) (h : ∀ p, region p → more p) : Visits resolve more x := by
  intro s visited hs hmore
  obtain ⟨⟨now, hnow, hnext, hsites⟩, hkey⟩ := hx s visited hs fun p hp => hmore p (h p hp)
  exact ⟨⟨now, hnow, hnext, fun p hp => (hsites p hp).imp_right (Or.imp_left (h p))⟩, hkey⟩

/-- Two regions one after the other. -/
theorem bind {both : Site → Prop} (hx : Visits resolve region x) {f : α → Render β}
    (hf : ∀ a, Visits resolve more (f a)) (hapart : ∀ p, region p → ¬ more p)
    (hregion : ∀ p, region p → both p) (hmore : ∀ p, more p → both p) :
    Visits resolve both (x >>= f) := by
  intro s visited hs hboth
  obtain ⟨⟨now, hnow, hnext, hsites⟩, hkey⟩ :=
    hx s visited hs fun p hp => hboth p (hregion p hp)
  rw [Sound.run_bind]
  cases hrun : x.run.run s with
  | mk result s' =>
    rw [hrun] at hnow hnext hkey
    cases result with
    | error e =>
      exact ⟨⟨now, hnow, hnext, fun p hp => (hsites p hp).imp_right (Or.imp_left (hregion p))⟩,
        fun key h => hkey key (congrArg _ (Except.error.inj h))⟩
    | ok a =>
      have hfresh : ∀ p, more p → ¬ now p ∧ ∀ cid ∈ p.cid?, cid < s'.mounts.registry.next := by
        intro p hp
        obtain ⟨hold, hcid⟩ := hboth p (hmore p hp)
        refine ⟨fun hin => ?_, fun cid h => Nat.lt_of_lt_of_le (hcid cid h) hnext⟩
        rcases hsites p hin with hin | hin | ⟨cid, h, hle⟩
        · exact hold hin
        · exact hapart p hin hp
        · exact absurd (hcid cid h) (Nat.not_lt.mpr hle)
      obtain ⟨⟨last, hlast, hnext', hsites'⟩, hkey'⟩ := hf a s' now hnow hfresh
      refine ⟨⟨last, hlast, Nat.le_trans hnext hnext', fun p hp => ?_⟩, hkey'⟩
      rcases hsites' p hp with hp | hp | ⟨cid, h, hle⟩
      · exact (hsites p hp).imp_right (Or.imp_left (hregion p))
      · exact .inr (.inl (hmore p hp))
      · exact .inr (.inr ⟨cid, h, Nat.le_trans hnext hle⟩)

/-- A step that mounts nothing, before or after others. -/
theorem after {f : α → Render β} (hx : Visits resolve Site.Nowhere x)
    (hf : ∀ a, Visits resolve region (f a)) : Visits resolve region (x >>= f) :=
  hx.bind hf (fun _ => False.elim) (fun _ => False.elim) fun _ => id

theorem before {f : α → Render β} (hx : Visits resolve region x)
    (hf : ∀ a, Visits resolve Site.Nowhere (f a)) : Visits resolve region (x >>= f) :=
  hx.bind hf (fun _ _ => id) (fun _ => id) fun _ => False.elim

/-- What one step leads to, before what later steps of the same site lead to. -/
theorem next {p : Site} {step : Site.Step} (hx : Visits resolve (p.step step).Under x)
    {f : α → Render β} (hf : ∀ a, Visits resolve (p.After (step.index + 1)) (f a)) :
    Visits resolve (p.After step.index) (x >>= f) :=
  hx.bind hf (fun _ hq => Site.not_after_of_under (Nat.lt_succ_self _) hq)
    (fun _ hq => ⟨step, Nat.le_refl _, hq⟩) fun _ hq => hq.mono (Nat.le_succ _)

theorem still (hregistry : ∀ s, (x.run.run s).2.mounts.registry = s.mounts.registry)
    (hmounted : ∀ s render, ((x.run.run s).2.mounts.arena render).mounted =
      (s.mounts.arena render).mounted)
    (hfault : ∀ s key, (x.run.run s).1 ≠ .error (.tree (.mountedTwice key))) :
    Visits resolve region x := by
  intro s visited hs _
  refine ⟨⟨visited, ⟨?_, fun render key h => ?_, ?_⟩, ?_, fun _ => .inl⟩, fun key h => ?_⟩
  · rw [hregistry]
    exact hs.live
  · rw [hmounted] at h
    exact hs.keys render key h
  · rw [hregistry]
    exact hs.older
  · rw [hregistry]
  · exact absurd h (hfault s key)

theorem pure (a : α) : Visits resolve region (Pure.pure a : Render α) :=
  still (fun _ => rfl) (fun _ _ => rfl) fun _ _ => nofun

theorem map (hx : Visits resolve region x) (k : α → β) : Visits resolve region (k <$> x) := by
  rw [← bind_pure_comp]
  exact hx.before fun a => pure (k a)

theorem emit (event : Event) : Visits resolve region (Render.emit event) :=
  still (fun _ => rfl) (fun _ _ => rfl) fun _ _ => nofun

theorem newPart : Visits resolve region Render.newPart :=
  still (fun _ => rfl) (fun _ _ => rfl) fun _ _ => nofun

theorem newDynamic (content : Content) : Visits resolve region (Render.newDynamic content) :=
  still (fun _ => rfl) (fun _ _ => rfl) fun _ _ => nofun

theorem ofTree {x : Except TreeError α} (h : ∀ key, x ≠ .error (.mountedTwice key)) :
    Visits resolve region (Render.ofTree x) := by
  refine still (fun _ => rfl) (fun _ _ => rfl) fun s key hrun => h key ?_
  cases x with
  | ok a => cases hrun
  | error e =>
    cases hrun
    rfl

/-- What an evaluation comes to decides what comes after it. -/
theorem ofEval_bind {P : α → Prop} {y : Eval α} (hy : Yields (fun _ => True) P y)
    {f : α → Render β} (hf : ∀ a, P a → Visits resolve region (f a)) :
    Visits resolve region (Render.ofEval y >>= f) := by
  intro s visited hs hregion
  have hrun : (Render.ofEval y).run.run s =
      ((y.run.run s.journal.nextId).1.mapError .eval,
        { s with journal := { s.journal with nextId := (y.run.run s.journal.nextId).2 } }) := rfl
  rw [Sound.run_bind, hrun]
  cases hresult : (y.run.run s.journal.nextId).1 with
  | error e => exact ⟨⟨visited, hs, Nat.le_refl _, fun _ => .inl⟩, fun _ => nofun⟩
  | ok a => exact hf a (hy.of_run trivial hresult) _ visited hs hregion

theorem ofEval (y : Eval α) : Visits resolve region (Render.ofEval y) := by
  have h : Visits resolve region (Render.ofEval y >>= Pure.pure) :=
    ofEval_bind (Yields.unseen y) fun a _ => pure a
  rwa [bind_pure] at h

theorem placing (hx : Visits resolve region x) (source : Source) :
    Visits resolve region (Render.placing source x) := by
  intro s visited hs hregion
  obtain ⟨hsites, hkey⟩ := hx s visited hs hregion
  rw [Render.placing, run_tryCatch]
  cases hrun : x.run.run s with
  | mk result s' =>
    rw [hrun] at hsites hkey
    cases result with
    | ok a => exact ⟨hsites, fun _ h => by cases h⟩
    | error e =>
      cases e with
      | eval fault => cases fault <;> exact ⟨hsites, fun _ h => by cases h⟩
      | placed _ _ _ => exact ⟨hsites, fun _ h => by cases h⟩
      | tree e => exact ⟨hsites, hkey⟩

end Visits

/-! ### Calls -/

/-- The key of a call is one that its component gives: that of an id, or that of its site. -/
theorem ComponentPlan.yields_key {resolve : Resolver} {unit : Option Nat} {target : Target}
    {d : Definition} (hd : d ∈ resolve unit target) (plan : ComponentPlan) {frame : Frame} {p : Site}
    (hp : frame.position = p.text) :
    Yields (fun _ => True) (fun key => ∃ k : MountKey, k.text = key ∧ resolve.Gives k ∧
      ∀ q ∈ k.site?, q = p) (plan.mountKey frame d.name) := by
  have hsited : ∃ k : MountKey, k.text = frame.position ++ ":" ++ d.name ∧ resolve.Gives k ∧
      ∀ q ∈ k.site?, q = p := by
    refine ⟨.sited p d.name, by rw [hp]; rfl, ⟨⟨unit, target, d, hd, rfl⟩, ?_⟩, ?_⟩
    · rintro _ _ _ ⟨⟩
    · exact fun q hq => (Option.some.inj hq).symm
  unfold mountKey
  dsimp only
  split
  · exact .pure hsited
  · apply (Yields.unseen _).bind
    intro v _
    split
    · exact .pure hsited
    · exact .pure hsited
    · exact .pure hsited
    · apply (Yields.unseen _).bind
      intro text _
      refine .pure ⟨.explicit d.name v.typeName text, rfl, ⟨⟨unit, target, d, hd, rfl⟩, ?_⟩, ?_⟩
      · rintro name typeName text h
        exact ⟨v, (MountKey.explicit.inj h).2.1⟩
      · rintro q ⟨⟩

section Renders
variable {resolve : Resolver}

/-- A key that is noted for a new component leaves the rest as it was visited. -/
theorem Mounts.Visited.note {m : Mounts} {visited : Site → Prop} (h : m.Visited resolve visited)
    {k : MountKey} (hk : resolve.Gives k) {p : Site} (hp : ∀ q ∈ k.site?, q = p)
    (hcid : ∀ cid ∈ p.cid?, cid < m.registry.next) (render : Nat) :
    Mounts.Visited resolve (fun q => visited q ∨ q = p)
      { m.update render fun a => a.note k.text m.registry.next with
        registry := { m.registry with next := m.registry.next + 1 } } where
  live := h.live
  keys other key hkey := by
    change Assoc.contains (((m.update render fun a => a.note k.text m.registry.next).arena
      other).mounted) key = true at hkey
    rw [Scene.arena_update] at hkey
    split at hkey
    · rcases contains_of_set hkey with hkey | rfl
      · obtain ⟨a, htext, ha, hsite⟩ := h.keys render key hkey
        exact ⟨a, htext, ha, fun q hq => .inl (hsite q hq)⟩
      · exact ⟨k, rfl, hk, fun q hq => .inr (hp q hq)⟩
    · obtain ⟨a, htext, ha, hsite⟩ := h.keys other key hkey
      exact ⟨a, htext, ha, fun q hq => .inl (hsite q hq)⟩
  older q hq cid hc := by
    rcases hq with hq | rfl
    · exact Nat.lt_succ_of_lt (h.older q hq cid hc)
    · exact Nat.lt_succ_of_lt (hcid cid hc)

/-- A call visits its own site and those of the component it mounts, whose number is new. -/
theorem visits_enter {k : MountKey} (hk : resolve.Gives k) {p : Site} (hp : ∀ q ∈ k.site?, q = p)
    (render : Nat) {f : Nat × Option Instance → Render Content}
    (hf : ∀ cid, Visits resolve (Site.component cid).Under (f (cid, none))) :
    Visits resolve p.Under (Render.ofMounting (Mounts.enter render k.text) >>= f) := by
  rintro ⟨m, journal⟩ visited hs hregion
  obtain ⟨hnew, hcid⟩ := hregion p p.self_mem_chain
  have hrun : (Render.ofMounting (Mounts.enter render k.text)).run.run ⟨m, journal⟩ =
      (((Mounts.enter render k.text).run.run m).1.mapError .tree,
        ⟨((Mounts.enter render k.text).run.run m).2, journal⟩) := rfl
  have hlive : Assoc.get? m.registry.live k.text = none := by rw [hs.live, Assoc.get?_nil]
  rw [Sound.run_bind, hrun, run_enter, hlive]
  cases hmounted : Assoc.contains (m.arena render).mounted k.text with
  | true =>
    refine ⟨⟨visited, hs, Nat.le_refl _, fun _ => .inl⟩, fun key h => ?_⟩
    cases h
    obtain ⟨a, htext, ha, hsite⟩ := hs.keys render k.text hmounted
    refine ⟨a, k, ha, hk, htext, rfl, fun hsame => ?_⟩
    cases hq : a.site? with
    | none => rfl
    | some q =>
      have hvisited := hsite q hq
      rw [hp q (hsame ▸ hq)] at hvisited
      exact absurd hvisited hnew
  | false =>
    have hnoted := hs.note hk hp hcid render
    have hown : ∀ q, (Site.component m.registry.next).Under q →
        ¬ (visited q ∨ q = p) ∧ ∀ cid ∈ q.cid?, cid < m.registry.next + 1 := by
      intro q hq
      have hqcid : q.cid? = some m.registry.next := hq.cid?
      refine ⟨?_, fun cid hc => ?_⟩
      · rintro (hvisited | rfl)
        · exact Nat.lt_irrefl _ (hs.older q hvisited _ hqcid)
        · exact Nat.lt_irrefl _ (hcid _ hqcid)
      · rw [hqcid] at hc
        cases hc
        exact Nat.lt_succ_self _
    obtain ⟨⟨now, hnow, hnext, hsites⟩, hkey⟩ := hf m.registry.next ⟨_, journal⟩ _ hnoted hown
    refine ⟨⟨now, hnow, Nat.le_trans (Nat.le_succ _) hnext, fun q hq => ?_⟩, hkey⟩
    rcases hsites q hq with (hq | rfl) | hq | ⟨cid, hc, hle⟩
    · exact .inl hq
    · exact .inr (.inl q.self_mem_chain)
    · exact .inr (.inr ⟨m.registry.next, hq.cid?, Nat.le_refl _⟩)
    · exact .inr (.inr ⟨cid, hc, Nat.le_trans (Nat.le_succ _) hle⟩)

/-- What a component or a slot content is rendered by visits no sites but those under its own. -/
def Surroundings.Visits (resolve : Resolver) (around : Surroundings) : Prop :=
  around.resolve = resolve ∧ ∀ (fragment : Fragment) (frame : Frame) (p : Site),
    frame.position = p.text → LiveTemplate.Visits resolve p.Under (around.render fragment frame none)

variable {around : Surroundings} (hs : around.Visits resolve)
include hs

theorem visits_component (plan : ComponentPlan) {frame : Frame} {p : Site}
    (hp : frame.position = p.text) : Visits resolve p.Under (renderComponent around frame plan) := by
  rw [renderComponent, hs.1]
  cases hresolved : resolve frame.unit plan.target with
  | none => exact .ofEval _
  | some d =>
    apply Visits.ofEval_bind (plan.yields_key hresolved hp)
    rintro _ ⟨k, rfl, hk, hsite⟩
    refine visits_enter hk hsite frame.render fun cid => ?_
    apply Visits.ofEval_bind (Yields.unseen _)
    intro callee _
    apply (Visits.emit _).after
    intro _
    apply Visits.ofEval_bind (Yields.unseen _)
    intro id _
    apply (hs.2 d.fragment (d.frame callee id frame.render cid) (.component cid) rfl).before
    intro tree
    refine Visits.after (.still (fun _ => rfl) (fun s other => ?_) fun _ _ h => by cases h) fun _ => ?_
    · exact Scene.field_update (fun a => leave_mounted a cid k.text none tree callee.assigns.fields
        frame.owner) s.mounts frame.render other
    · exact (Visits.emit _).after fun _ => .pure _

theorem visits_entry {host : Frame} {p : Site} (hp : host.position = p.text) (span : Span)
    (argument : Value) (entry : Entry) (index : Nat) :
    Visits resolve (p.step (.entry entry.slot index)).Under
      (entry.render around host span argument index none) := by
  rw [Entry.render]
  cases entry.content with
  | none => exact .ofEval _
  | some block =>
    have hposition : host.position ++ ">" ++ entry.slot ++ toString index =
        (p.step (.entry entry.slot index)).text := by
      rw [hp, String.append_assoc]
      rfl
    have hbody : ∀ locals, Visits resolve (p.step (.entry entry.slot index)).Under (around.render
        block.body (block.frame locals host (host.position ++ ">" ++ entry.slot ++ toString index))
        none) := fun locals => hs.2 _ _ _ hposition
    dsimp only
    cases block.pattern with
    | none => exact hbody _
    | some pattern => exact Visits.ofEval_bind (Yields.unseen _) fun locals _ => hbody locals

theorem visits_entries {host : Frame} {p : Site} (hp : host.position = p.text) (span : Span)
    (argument : Value) (entries : List Entry) (index : Nat) :
    Visits resolve (p.After index) (Entry.renderAll around host span argument index [] entries) := by
  induction entries generalizing index with
  | nil => exact .pure []
  | cons entry rest ih =>
    rw [Entry.renderAll]
    exact (visits_entry hs hp span argument entry index).next fun tree =>
      (ih (index + 1)).map (tree :: ·)

theorem visits_slot {frame : Frame} {p : Site} (hp : frame.position = p.text) (slot : Expr)
    (argument : Option Expr) (span : Span) :
    Visits resolve p.Under (renderSlot around frame slot argument span none) := by
  rw [renderSlot]
  apply Visits.ofEval_bind (Yields.unseen _)
  intro v _
  apply Visits.ofEval_bind (Yields.unseen _)
  intro entries _
  have hfill : ∀ argument, Visits resolve p.Under
      (Entry.fill around frame span none entries argument) := by
    intro argument
    rcases entries with _ | ⟨entry, _ | ⟨second, rest⟩⟩
    · exact .pure _
    · exact ((visits_entry hs hp span argument entry 0).map _).mono
        fun q hq => (p.under_step _).trans hq
    · exact ((visits_entries hs hp span argument (entry :: second :: rest) 0).map _).mono
        fun q hq => hq.under
  cases argument with
  | none => exact hfill .undefined
  | some e => exact Visits.ofEval_bind (Yields.unseen _) fun v _ => hfill v

omit hs in
/-- Rows visit sites apart from each other. -/
theorem visits_rows {p : Site} {f : Value × Nat → Render Row}
    (hf : ∀ x, Visits resolve (p.step (.row x.2)).Under (f x)) (items : List Value) (index : Nat) :
    Visits resolve (p.After index) ((items.zipIdx index).mapM f) := by
  induction items generalizing index with
  | nil => exact .pure []
  | cons item rest ih =>
    rw [List.zipIdx_cons, List.mapM_cons]
    exact (hf (item, index)).next fun row => (ih (index + 1)).map (row :: ·)

set_option linter.unusedSectionVars false in
mutual

/-- A fragment visits the sites under its own, each plan those of its index. -/
theorem visits_fragment : ∀ (fragment : Fragment) {frame : Frame} {p : Site},
    frame.position = p.text → Visits resolve p.Under (fragment.render around frame none)
  | ⟨statics, plans, fingerprint, root, reads⟩, frame, p, hp => by
    rw [Fragment.render]
    refine ((visits_plans plans hp 0).mono fun q hq => hq.under).before fun dynamics => ?_
    refine Visits.newPart.after fun id => .ofTree fun key h => ?_
    rw [Tree.create] at h
    split at h <;> cases h

theorem visits_plans : ∀ (plans : List Plan) {frame : Frame} {p : Site},
    frame.position = p.text → ∀ index,
      Visits resolve (p.After index) (Plan.renderAll around frame index [] plans)
  | [], frame, p, hp, index => by
    rw [Plan.renderAll]
    exact .pure []
  | plan :: rest, frame, p, hp, index => by
    rw [Plan.renderAll]
    have hnone : reusable? frame plan.reads ([] : List Dynamic).head? = none := by
      rw [reusable?]
      split <;> rfl
    have hposition : { frame with position := frame.position ++ "/" ++ toString index }.position =
        (p.step (.plan index)).text := by
      rw [hp]
      rfl
    have hplan := ((visits_plan plan hposition).before Visits.newDynamic).placing frame.source
    simp only [hnone]
    exact hplan.next fun d => (visits_plans rest hp (index + 1)).map (d :: ·)

theorem visits_plan : ∀ (plan : Plan) {frame : Frame} {p : Site},
    frame.position = p.text → Visits resolve p.Under (plan.render around frame none)
  | .body e reads span, frame, p, hp => by
    rw [Plan.render]
    exact Visits.ofEval_bind (Yields.unseen _) fun v _ => (Visits.ofEval _).map _
  | .attribute name form e reads span, frame, p, hp => by
    rw [Plan.render]
    exact Visits.ofEval_bind (Yields.unseen _) fun v _ => (Visits.ofEval _).map _
  | .spread e reads span, frame, p, hp => by
    rw [Plan.render]
    refine Visits.ofEval_bind (Yields.unseen _) fun v _ => ?_
    exact Visits.ofEval_bind (Yields.unseen _) fun fields _ => (Visits.ofEval _).map _
  | .slot slot argument reads span, frame, p, hp => by
    rw [Plan.render]
    exact visits_slot hs hp slot argument span
  | .conditional branches reads span, frame, p, hp => by
    rw [Plan.render]
    exact visits_branches branches hp 0
  | .comprehension header ⟨statics, plans, fingerprint, root, inner⟩ reads span, frame, p, hp => by
    rw [Plan.render]
    refine Visits.ofEval_bind (Yields.unseen _) fun source _ => ?_
    refine Visits.ofEval_bind (Yields.unseen _) fun items _ => ?_
    refine Visits.before ?rows fun rows => ?last
    case rows =>
      refine (visits_rows (fun x => ?_) items 0).mono fun q hq => hq.under
      refine Visits.ofEval_bind (Yields.unseen _) fun locals _ => ?_
      have hposition : { frame with
          locals := locals, position := frame.position ++ ":" ++ toString x.2 }.position =
            (p.step (.row x.2)).text := by
        rw [hp]
        rfl
      refine Visits.before ?_ fun dynamics => Visits.newPart.after fun id => .pure _
      exact (visits_plans plans hposition 0).mono fun q hq => hq.under
    case last =>
      refine (Visits.emit _).after fun _ => .ofTree fun key h => ?_
      rw [Content.createRows] at h
      split at h <;> cases h
  | .component plan, frame, p, hp => by
    rw [Plan.render]
    exact visits_component hs plan hp

theorem visits_branches : ∀ (branches : List BranchPlan) {frame : Frame} {p : Site},
    frame.position = p.text → ∀ index,
      Visits resolve p.Under (BranchPlan.renderFirst around frame none index branches)
  | [], frame, p, hp, index => by
    rw [BranchPlan.renderFirst]
    exact .pure _
  | ⟨condition, body⟩ :: rest, frame, p, hp, index => by
    have hposition : { frame with position := frame.position ++ "?" ++ toString index }.position =
        (p.step (.branch index)).text := by
      rw [hp]
      rfl
    have hnext : ∀ holds : Bool, Visits resolve p.Under (if holds then
        .nested <$> Fragment.render around
          { frame with position := frame.position ++ "?" ++ toString index } none body
        else BranchPlan.renderFirst around frame none (index + 1) rest) := by
      intro holds
      cases holds with
      | true =>
        have hbody := visits_fragment body hposition
        exact (hbody.map _).mono fun q hq => (p.under_step _).trans hq
      | false => exact visits_branches rest hp (index + 1)
    unfold BranchPlan.renderFirst
    cases condition with
    | none => exact hnext true
    | some e => exact Visits.after ((Visits.ofEval _).map _) hnext

end

end Renders

/-- However deep components and slot contents nest, a render visits no sites but those under its own. -/
theorem visits_renderWithin (resolve : Resolver) (depth : Nat) (fragment : Fragment) {frame : Frame}
    {p : Site} (hp : frame.position = p.text) :
    Visits resolve p.Under (renderWithin resolve depth fragment frame none) := by
  induction depth generalizing fragment frame p with
  | zero => exact .still (fun _ => rfl) (fun _ _ => rfl) fun _ _ => nofun
  | succ depth ih =>
    have hs : Surroundings.Visits resolve ⟨resolve, renderWithin resolve depth⟩ :=
      ⟨rfl, fun fragment _ _ hp => ih fragment hp⟩
    exact visits_fragment hs fragment hp

/-! ### Pages -/

theorem componentHtml_ne_mountedTwice {table : Nat → Option Tree} (key : String) (depth cid : Nat) :
    componentHtml table depth cid ≠ .error (.mountedTwice key) := by
  induction depth generalizing cid with
  | zero => rintro ⟨⟩
  | succ depth ih =>
    rw [componentHtml]
    split
    · rintro ⟨⟩
    · rename_i tree _
      rcases tree.settles (componentHtml table depth) with ⟨page, hpage, -⟩ | ⟨e, herror, other, -, he⟩
      · rw [hpage]
        rintro ⟨⟩
      · rw [herror, ← he]
        exact ih other

/-- To put a page together mounts nothing. -/
theorem Snapshot.html_ne_mountedTwice (s : Snapshot) (key : String) :
    s.html ≠ .error (.mountedTwice key) := by
  rw [Snapshot.html, Tree.html]
  rcases s.root.settles (componentHtml _ _) with ⟨page, hpage, -⟩ | ⟨e, herror, cid, -, he⟩
  · rw [hpage]
    rintro ⟨⟩
  · rw [herror, ← he]
    exact componentHtml_ne_mountedTwice key _ cid

/-- A key that a page mounts twice is the key of two of its calls. -/
theorem Template.doubles_of_page {t : Template} {resolve : Resolver} {assigns : Record Value}
    {journal : Journal} {key : String}
    (h : ((t.page resolve assigns).run journal).1 = .error (.tree (.mountedTwice key))) :
    resolve.Doubles key := by
  let start : RenderState := ⟨Mounts.start {} none, { journal with nextId := journal.nextId + 1 }⟩
  have hstart : start.mounts.Visited resolve Site.Nowhere := by
    refine ⟨rfl, fun render key h => ?_, fun p => False.elim⟩
    have harena : (start.mounts.arena render).mounted = [] := by
      match render with
      | 0 => rfl
      | _ + 1 => rfl
    rw [harena] at h
    cases h
  have hroot : (t.frame { fields := assigns } journal.nextId none 0).position = Site.root.text := rfl
  obtain ⟨-, hkey⟩ := visits_renderWithin resolve renderDepth t.fragment hroot start _ hstart
    fun p hp => ⟨id, fun cid hc => by
      rw [hp.cid?] at hc
      cases hc⟩
  change Except.bind ((t.render resolve (t.frame { fields := assigns } journal.nextId none 0)
    none).run.run start).1 _ = _ at h
  rw [Template.render] at h
  cases hrun : ((renderWithin resolve renderDepth t.fragment
      (t.frame { fields := assigns } journal.nextId none 0) none).run.run start).1 with
  | error e =>
    rw [hrun] at h
    exact hkey key (hrun.trans (congrArg _ (Except.error.inj h)))
  | ok root =>
    rw [hrun] at h
    change Except.mapError RenderError.tree (Snapshot.html _) = _ at h
    cases hhtml : Snapshot.html _ with
    | ok page =>
      rw [hhtml] at h
      cases h
    | error e =>
      rw [hhtml] at h
      cases h
      exact absurd hhtml (Snapshot.html_ne_mountedTwice _ key)

theorem isUnmarked_typeName (v : Value) : isUnmarked v.typeName = true := by
  unfold Value.typeName
  split <;> decide

/-- Where names of components have no marks in them, only the name of a slot can blur a key. -/
theorem Resolver.Gives.exists_slot {resolve : Resolver}
    (hnames : ∀ unit target, ∀ d ∈ resolve unit target, isUnmarked d.name = true) {k : MountKey}
    (hk : resolve.Gives k) (h : k.isClear = false) :
    ∃ p ∈ k.site?, ∃ slot ∈ p.slots, isClearSlot slot = false := by
  obtain ⟨unit, target, d, hd, hname⟩ := hk.named
  have hunmarked := hnames unit target d hd
  rw [hname] at hunmarked
  match k with
  | .explicit name typeName text =>
    obtain ⟨v, rfl⟩ := hk.typed name typeName text rfl
    rw [MountKey.isClear, isUnmarked_typeName, Bool.and_true] at h
    exact absurd (hunmarked.symm.trans h) nofun
  | .sited p name =>
    have hslots : p.slots.all isClearSlot = false := by
      rw [MountKey.isClear] at h
      exact (Bool.and_eq_false_iff.mp h).resolve_right fun hn => nomatch hunmarked.symm.trans hn
    obtain ⟨slot, hslot, hclear⟩ := List.all_eq_false.mp hslots
    exact ⟨p, rfl, slot, hslot, by simpa using hclear⟩

/-- A host that renders the entries of two slots as one list. -/
def crowding : UnitStep Template := do
  TemplateUnit.define "dot" [.template "<i>x</i>"]
  TemplateUnit.define "host" [.slot ⟨"s", false, none, []⟩, .slot ⟨"s1", false, none, []⟩,
    .template "{renderSlot(s1.concat(s))}"]
  let between := String.join (List.replicate 9 "<:s>.</:s>")
  TemplateUnit.compile
    ("<.host><:s1><.dot/></:s1>" ++ between ++ "<:s><.dot/></:s></.host>") none

def crowd : Except UnitError Template × TemplateUnit :=
  ((crowding.run.run { number := 0, name := "Ui", file := "Ui", helpers := [] }).run {}).1

def crowdTemplate : Template := crowd.1.toOption.get (by decide +kernel)

theorem Library.mem_definitions {u : TemplateUnit} (himported : u.imported = [])
    (hmodules : u.modules = []) {unit : Option Nat} {target : Target} {d : Definition}
    (h : d ∈ Library.resolver [(0, u)] unit target) : d ∈ u.definitions.map Prod.snd := by
  obtain ⟨v, hv, hd⟩ := Option.bind_eq_some_iff.mp h
  obtain ⟨number, -, hu⟩ := Option.bind_eq_some_iff.mp hv
  obtain rfl : u = v := by
    rw [Assoc.get?, Assoc.get?_nil] at hu
    split at hu
    · exact Option.some.inj hu
    · cases hu
  rw [TemplateUnit.resolve, himported, hmodules] at hd
  have hmem : ∀ {name : String}, Assoc.get? u.definitions name = some d →
      d ∈ u.definitions.map Prod.snd := fun hget => List.mem_map_of_mem (Assoc.mem_of_get? hget)
  split at hd
  · rw [Assoc.get?_nil, Option.or_none] at hd
    exact hmem hd
  · split at hd
    · exact hmem hd
    · cases hd

end LiveTemplate
