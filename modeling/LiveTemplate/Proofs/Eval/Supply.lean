import LiveTemplate.Proofs.Eval.Repeating
import LiveTemplate.Proofs.Eval.Yields

/-!
Identities are given out in turn. An evaluation goes on from the identity it starts at, and a template
can tell nothing of what it comes to that was not given out by its end.
-/

namespace LiveTemplate

set_option autoImplicit false

/-! ### Values of identities that were given out -/

/-- What was given out before some identity stands for itself, all else for nothing. -/
def Pairing.below (n : Identity) : Pairing := fun i j => i = j ∧ i < n

/-- All that can be told of a value was given out before some identity. -/
abbrev Value.Given (n : Identity) (v : Value) : Prop := Alike (.below n) v v

abbrev AllGiven (n : Identity) (vs : List Value) : Prop := List.Forall₂ (Alike (.below n)) vs vs

abbrev NamesGiven (n : Identity) (fs : List (String × Value)) : Prop := NamesAlike (.below n) fs fs

theorem Pairing.below_exact {n : Identity} (hn : 0 < n) : (Pairing.below n).Exact where
  eq_iff := fun ⟨hij, _⟩ ⟨hkl, _⟩ => by rw [hij, hkl]
  shared := ⟨rfl, hn⟩

theorem rel_imp {α β : Type} {R S : α → β → Prop} {a : Option α} {b : Option β}
    (h : Option.Rel R a b) (hRS : ∀ x y, R x y → S x y) : Option.Rel S a b := by
  cases h with
  | none => exact .none
  | some h => exact .some (hRS _ _ h)

section Mono
variable {σ τ : Pairing} (hστ : ∀ i j, σ i j → τ i j)
include hστ

theorem Layer.IdsMatch.mono {a b : Layer} (h : a.IdsMatch σ b) : a.IdsMatch τ b :=
  h.imp_right fun ⟨i, j, ha, hb, hid⟩ => ⟨i, j, ha, hb, hστ i j hid⟩

/-- Values stay alike where more identities stand for each other. -/
theorem Alike.mono {v w : Value} (h : Alike σ v w) : Alike τ v w := by
  induction h with
  | undefined => exact .undefined
  | null => exact .null
  | flag b => exact .flag b
  | number x => exact .number x
  | text s => exact .text s
  | list hid hlength _ ih => exact .list (hστ _ _ hid) hlength ih
  | record hid hsort _ hnames _ ihp ih => exact .record (hστ _ _ hid) hsort ihp hnames ih
  | map hid hlength _ _ ihk ihv => exact .map (hστ _ _ hid) hlength ihk ihv
  | set hid hlength _ ih => exact .set (hστ _ _ hid) hlength ih
  | date t hid => exact .date t (hστ _ _ hid)
  | html s hid => exact .html s (hστ _ _ hid)
  | method m => exact .method m
  | helper f => exact .helper f
  | closure hid hlength hids hnames _ houter houter' hfound hstep _ hknown hparams hbody ih ihend =>
    exact .closure (hστ _ _ hid) hlength (fun p hp => (hids p hp).mono hστ) hnames ih houter houter'
      hfound hstep ihend hknown hparams hbody
  | block content hid => exact .block content (hστ _ _ hid)

theorem NamesAlike.mono {fs gs : List (String × Value)} (h : NamesAlike σ fs gs) :
    NamesAlike τ fs gs := h.imp fun _ _ he => ⟨he.1, he.2.mono hστ⟩

theorem LayerAlike.mono {a b : Layer} (h : LayerAlike σ a b) : LayerAlike τ a b :=
  ⟨h.ids.mono hστ, h.names.mono hστ⟩

theorem Scopes.mono {granted : String → List String → Prop} {known : List String} {s s' : Scope}
    (h : Scopes σ granted known s s') : Scopes τ granted known s s' := by
  obtain ⟨inner, inner', outer, outer', hs, hs', h⟩ := h
  exact ⟨inner, inner', outer, outer', hs, hs', h.layers.imp fun _ _ hl => hl.mono hστ, h.plain,
    h.plain', fun hx => rel_imp (h.meet hx) fun _ _ hvw =>
      ⟨hvw.inStep, fun hu ht => (hvw.alike hu ht).mono hστ⟩, h.known⟩

end Mono

theorem Pairing.below_le {n k : Identity} (hk : n ≤ k) (i j : Identity)
    (h : Pairing.below n i j) : Pairing.below k i j := ⟨h.1, Nat.lt_of_lt_of_le h.2 hk⟩

theorem Pairing.below_self {σ : Pairing} {n : Identity} (hσ : ∀ i < n, σ i i) (i j : Identity)
    (h : Pairing.below n i j) : σ i j := h.1 ▸ hσ i h.2

section Later
variable {n k : Identity} (hk : n ≤ k)
include hk

theorem Value.Given.later {v : Value} (h : v.Given n) : v.Given k := h.mono (Pairing.below_le hk)

theorem AllGiven.later {vs : List Value} (h : AllGiven n vs) : AllGiven k vs :=
  h.imp fun _ _ hv => hv.mono (Pairing.below_le hk)

theorem NamesGiven.later {fs : List (String × Value)} (h : NamesGiven n fs) : NamesGiven k fs :=
  h.mono (Pairing.below_le hk)

end Later

/-! ### Work that goes on -/

/-- Wherever work starts from some identity on, it goes on from there, and what it comes to has a
property as of its end. -/
def Advances (n : Identity) {α : Type} (P : Identity → α → Prop) (x : Eval α) : Prop :=
  ∀ k ≥ n, k ≤ (x.run.run k).2 ∧ IfOk (P (x.run.run k).2) (x.run.run k).1

/-- A value that work comes to, of identities given out by then. -/
abbrev Supplied (n : Identity) (x : Eval Value) : Prop := Advances n (fun k v => v.Given k) x

namespace Advances

variable {n : Identity} {α β : Type} {P : Identity → α → Prop} {Q : Identity → β → Prop}

theorem pure {a : α} (h : ∀ k ≥ n, P k a) : Advances n P (Pure.pure a) :=
  fun k hk => ⟨Nat.le_refl k, h k hk⟩

theorem throw (e : EvalError) : Advances n P (MonadExcept.throw e : Eval α) :=
  fun k _ => ⟨Nat.le_refl k, trivial⟩

theorem fail (cause : EvalCause) (span : Span) : Advances n P (Eval.fail cause span) := throw _

theorem later {x : Eval α} (h : Advances n P x) {k : Identity} (hk : n ≤ k) : Advances k P x :=
  fun i hi => h i (Nat.le_trans hk hi)

theorem imp {P' : Identity → α → Prop} {x : Eval α} (hx : Advances n P x)
    (h : ∀ k ≥ n, ∀ a, P k a → P' k a) : Advances n P' x :=
  fun k hk => ⟨(hx k hk).1, (hx k hk).2.imp (h _ (Nat.le_trans hk (hx k hk).1))⟩

theorem bind {x : Eval α} {f : α → Eval β} (hx : Advances n P x)
    (hf : ∀ k ≥ n, ∀ a, P k a → Advances k Q (f a)) : Advances n Q (x >>= f) := by
  intro k hk
  obtain ⟨hgrown, ha⟩ := hx k hk
  change k ≤ (StateT.run (ExceptT.bindCont f (x.run.run k).1) (x.run.run k).2).2 ∧
    IfOk (Q (StateT.run (ExceptT.bindCont f (x.run.run k).1) (x.run.run k).2).2)
      (StateT.run (ExceptT.bindCont f (x.run.run k).1) (x.run.run k).2).1
  cases hresult : (x.run.run k).1 with
  | error e => exact ⟨hgrown, trivial⟩
  | ok a =>
    rw [hresult] at ha
    obtain ⟨hmore, hb⟩ := hf _ (Nat.le_trans hk hgrown) a ha _ (Nat.le_refl _)
    exact ⟨Nat.le_trans hgrown hmore, hb⟩

/-- A step after one of whose result nothing has to be known. -/
theorem next {x : Eval α} {f : α → Eval β} (hx : Advances n P x) (hf : ∀ a, Advances n Q (f a)) :
    Advances n Q (x >>= f) := hx.bind fun _ hk a _ => (hf a).later hk

theorem map {x : Eval α} {f : α → β} (hx : Advances n P x) (hf : ∀ k ≥ n, ∀ a, P k a → Q k (f a)) :
    Advances n Q (f <$> x) := by
  intro k hk
  obtain ⟨hgrown, ha⟩ := hx k hk
  rw [← bind_pure_comp]
  change k ≤ (StateT.run (ExceptT.bindCont (fun a => (Pure.pure (f a) : Eval β)) (x.run.run k).1)
      (x.run.run k).2).2 ∧
    IfOk (Q (StateT.run (ExceptT.bindCont (fun a => (Pure.pure (f a) : Eval β)) (x.run.run k).1)
      (x.run.run k).2).2) (StateT.run (ExceptT.bindCont (fun a => (Pure.pure (f a) : Eval β))
        (x.run.run k).1) (x.run.run k).2).1
  cases hresult : (x.run.run k).1 with
  | error e => exact ⟨hgrown, trivial⟩
  | ok a =>
    rw [hresult] at ha
    exact ⟨hgrown, hf _ (Nat.le_trans hk hgrown) a ha⟩

/-- Work that comes to related results whatever is made next for what is made next goes on, and what
it comes to has the property of whatever is so related. -/
theorem of_both_imp (hn : 0 < n) {x : Eval α} {R : Pairing → α → α → Prop} {T : α → Prop}
    (h : ∀ σ : Pairing, σ.Exact → (∀ i < n, σ i i) → Both σ (R σ) x x)
    (hT : ∀ σ a b, R σ a b → T a) : Advances n (fun _ => T) x := by
  intro k hk
  have hexact := Pairing.shift_exact (Nat.lt_of_lt_of_le hn hk) (Nat.le_refl k) (Nat.le_succ k)
  have hself : ∀ i < n, Pairing.shift k k (k + 1) i i :=
    fun i hi => Pairing.shift_self (Nat.lt_of_lt_of_le hi hk)
  obtain ⟨hsame, hahead⟩ := h _ hexact hself k (k + 1) Pairing.shift_ahead
  refine ⟨Pairing.le_of_ahead (Nat.le_refl k) hahead, ?_⟩
  change SameOutcome _ (x.run.run k).1 (x.run.run (k + 1)).1 at hsame
  cases hresult : (x.run.run k).1 with
  | error e => trivial
  | ok a =>
    rw [hresult] at hsame
    obtain ⟨b, -, hab⟩ := hsame.of_ok
    exact hT _ a b hab

theorem of_both (hn : 0 < n) {x : Eval α} {R : Pairing → α → α → Prop}
    (h : ∀ σ : Pairing, σ.Exact → (∀ i < n, σ i i) → Both σ (R σ) x x) :
    Advances n (fun _ _ => True) x := of_both_imp hn h fun _ _ _ _ => trivial

theorem freshId : Advances n (fun k i => Pairing.below k i i) (liftM LiveTemplate.freshId : Eval Identity) :=
  fun k _ => ⟨Nat.le_succ k, rfl, Nat.lt_succ_self k⟩

theorem given {v : Value} (h : v.Given n) : Supplied n (Pure.pure v) := pure fun _ hk => h.later hk

theorem newList {vs : List Value} (h : AllGiven n vs) : Supplied n (Eval.newList vs) :=
  freshId.bind fun _ hk _ hid => pure fun _ hi =>
    .of_list (Pairing.below_le hi _ _ hid) (h.later (Nat.le_trans hk hi))

theorem ite {c : Prop} [Decidable c] {x y : Eval α} (hx : c → Advances n P x)
    (hy : ¬c → Advances n P y) : Advances n P (if c then x else y) := by
  split
  · exact hx ‹_›
  · exact hy ‹_›

section Lists
variable {xs : List α}

theorem mapM {f : α → Eval β} (hQ : ∀ {i k : Identity} {b : β}, i ≤ k → Q i b → Q k b)
    (hf : ∀ x ∈ xs, Advances n Q (f x)) : Advances n (fun k bs => ∀ b ∈ bs, Q k b) (xs.mapM f) := by
  induction xs with
  | nil => exact pure fun _ _ _ hb => absurd hb List.not_mem_nil
  | cons x rest ih =>
    rw [List.forall_mem_cons] at hf
    rw [List.mapM_cons]
    exact hf.1.bind fun k hk b hb => ((ih hf.2).later hk).bind fun i hi bs hbs =>
      pure fun j hj => List.forall_mem_cons.mpr
        ⟨hQ (Nat.le_trans hi hj) hb, fun b' hb' => hQ hj (hbs b' hb')⟩

end Lists

theorem and {P' : Identity → α → Prop} {x : Eval α} (hx : Advances n P x) (hy : Advances n P' x) :
    Advances n (fun k a => P k a ∧ P' k a) x := by
  intro k hk
  obtain ⟨hgrown, ha⟩ := hx k hk
  have ha' := (hy k hk).2
  refine ⟨hgrown, ?_⟩
  cases hresult : (x.run.run k).1 with
  | error e => trivial
  | ok a =>
    rw [hresult] at ha ha'
    exact ⟨ha, ha'⟩

/-- What is known of the result besides, wherever the work starts. -/
theorem and_yields {R : α → Prop} {x : Eval α} (hx : Advances n P x)
    (hy : Yields (fun _ : Nat => True) R x) : Advances n (fun k a => P k a ∧ R a) x :=
  hx.and fun k hk => ⟨(hx k hk).1, (hy k trivial).1⟩

end Advances

/-! ### Methods -/

/-- Calls that supply values, of functions and values that were given out before. -/
structure Supplies.Calls (call : Call) : Prop where
  steady : ∀ {σ : Pairing}, σ.Exact → Steady σ call
  supplied : ∀ {n : Identity} {f self : Value} {args : List Value}, 0 < n → f.Given n →
    self.Given n → AllGiven n args → Supplied n (call f self args)

section
variable {n : Identity} (hn : 0 < n) {call : Call} (hcall : Supplies.Calls call)
include hn

theorem supplied_member {v : Value} (h : v.Given n) (name : String) : Supplied n (v.member name) := by
  have hmember := h.member?_rel (Pairing.below_exact hn) name
  rw [Value.member_eq]
  generalize v.member? name = u at hmember
  cases hmember with
  | none => exact .throw _
  | some hu => exact .given hu

theorem supplied_read {v : Value} (h : v.Given n) (name : String) (span : Span) :
    Supplied n (v.read name span) :=
  .ite (fun _ => .fail _ _) fun _ => .ite (fun _ => .fail _ _) fun _ => supplied_member hn h name

include hcall

theorem advances_toText {v : Value} (h : v.Given n) :
    Advances n (fun _ _ => True) (v.toText call) :=
  .of_both hn fun _ hσ hself =>
    both_toText hσ (hcall.steady hσ) (h.mono (Pairing.below_self hself))

theorem advances_toNumber {v : Value} (h : v.Given n) :
    Advances n (fun _ _ => True) (v.toNumber call) :=
  .of_both hn fun _ hσ hself =>
    both_toNumber hσ (hcall.steady hσ) (h.mono (Pairing.below_self hself))

theorem advances_indexArg {v : Value} (h : v.Given n) (index : Float → Nat → Nat)
    (length default : Nat) :
    Advances n (fun _ _ => True) (Value.indexArg call index v length default) :=
  .of_both hn fun _ hσ hself =>
    both_indexArg hσ (hcall.steady hσ) (h.mono (Pairing.below_self hself)) index length default

theorem supplied_conversion (c : Conversion) {self : Value} (h : self.Given n) :
    Supplied n (c.call call self) := by
  cases c with
  | kindText => exact .given (.text _)
  | itself => exact .ite (fun _ => .throw _) fun _ => .given h
  | listText =>
    simp only [Conversion.call]
    refine .ite (fun _ => .throw _) fun _ => ?_
    refine (supplied_member hn h "join").bind fun k hk f hf => ?_
    exact .ite (fun _ => hcall.supplied (Nat.lt_of_lt_of_le hn hk) hf (h.later hk) .nil)
      fun _ => .given (.text _)
  | markupText => exact .ite (fun _ => .throw _) fun _ => supplied_member hn h "html"
  | functionText => exact .ite (fun _ => .given (.text _)) fun _ => .throw _
  | textItself => cases self <;> first | exact .throw _ | exact .given (.text _)
  | numberItself => cases self <;> first | exact .throw _ | exact .given (.number _)
  | flagText => cases self <;> first | exact .throw _ | exact .given (.text _)
  | flagItself => cases self <;> first | exact .throw _ | exact .given (.flag _)
  | dateText => cases self <;> first | exact .throw _ | exact .given (.text _)
  | dateNumber => cases self <;> first | exact .throw _ | exact .given (.number _)
  | dateInterchange =>
    cases self with
    | date i t =>
      cases t with
      | none => exact .given .null
      | some t => exact .given (.text _)
    | _ => exact .throw _

theorem supplied_splitBy (cs : List Char) {separator limit : Value} (hs : separator.Given n)
    (hl : limit.Given n) : Supplied n (TextMethod.splitBy call cs separator limit) := by
  have htexts : ∀ pieces : List (List Char), Supplied n (Eval.newList (pieces.map Value.ofChars)) :=
    fun pieces => .newList (List.forall₂_same.mpr fun v hv => by
      obtain ⟨piece, -, rfl⟩ := List.mem_map.mp hv
      exact .text _)
  have hnumber := advances_toNumber hn hcall hl
  have htext := advances_toText hn hcall hs
  unfold TextMethod.splitBy
  cases limit with
  | undefined => exact htext.next fun _ => htexts _
  | _ => exact hnumber.next fun _ => htext.next fun _ => htexts _

theorem supplied_replacePart (cs : List Char) {part replacement : Value} (hp : part.Given n)
    (hr : replacement.Given n) : Supplied n (TextMethod.replacePart call cs part replacement) := by
  have htemplate : ∀ {f : String → Eval Value}, (∀ s, Supplied n (f s)) → Supplied n
      (if replacement.isFunction then pure "" >>= f else replacement.toText call >>= f) :=
    fun hf => .ite (fun _ => hf "") fun _ => (advances_toText hn hcall hr).next hf
  unfold TextMethod.replacePart
  refine (advances_toText hn hcall hp).next fun s => htemplate fun template => ?_
  dsimp only
  cases Text.cut? s.toList cs with
  | none => exact .given (.text _)
  | some cut =>
    obtain ⟨before, after⟩ := cut
    have hargs : AllGiven n
        [Value.ofChars s.toList, Value.number (Float.ofNat (Text.width before)), Value.ofChars cs] :=
      .cons (.text _) (.cons (.number _) (.cons (.text _) .nil))
    refine .ite (fun _ => ?_) fun _ => .given (.text _)
    refine (hcall.supplied hn hr .undefined hargs).bind fun k hk v hv => ?_
    exact (advances_toText (Nat.lt_of_lt_of_le hn hk) hcall hv).next fun _ => .given (.text _)

theorem supplied_fillFront (cs : List Char) {length filler : Value} (hl : length.Given n)
    (hf : filler.Given n) : Supplied n (TextMethod.fillFront call cs length filler) := by
  have htext := advances_toText hn hcall hf
  unfold TextMethod.fillFront
  refine (advances_toNumber hn hcall hl).next fun x => ?_
  refine .ite (fun _ => .given (.text _)) fun _ => ?_
  have hfilled : ∀ (s : String) {rest : Eval Value}, Supplied n rest →
      Supplied n (if s.isEmpty then return Value.ofChars cs else rest) :=
    fun _ _ hrest => .ite (fun _ => .given (.text _)) fun _ => hrest
  cases Number.toInt? x with
  | none =>
    cases filler with
    | undefined => exact hfilled " " (.throw _)
    | _ => exact htext.next fun s => hfilled s (.throw _)
  | some count =>
    have hpadded : ∀ s : String, Supplied n
        (if count.toNat < Value.longestText then
          return Value.ofChars (Text.padFront count.toNat s.toList cs)
        else throw .outOfRange : Eval Value) :=
      fun _ => .ite (fun _ => .given (.text _)) fun _ => .throw _
    cases filler with
    | undefined => exact hfilled " " (hpadded _)
    | _ => exact htext.next fun s => hfilled s (hpadded s)

theorem supplied_textMethod (m : TextMethod) {self : Value} {args : List Value} (h : self.Given n)
    (hargs : AllGiven n args) : Supplied n (m.call call self args) := by
  have hfirst : Value.Given n (argument args 0) := argument_alike hargs 0
  have hsecond : Value.Given n (argument args 1) := argument_alike hargs 1
  have hpart := advances_toText hn hcall hfirst
  have hnumber := advances_toNumber hn hcall hfirst
  have hindex := advances_indexArg hn hcall hsecond
  rw [TextMethod.call]
  refine .ite (fun _ => .throw _) fun _ => ?_
  refine (advances_toText hn hcall h).next fun s => ?_
  cases m with
  | toUpperCase | toLowerCase | trim => exact .given (.text _)
  | slice =>
    exact (advances_indexArg hn hcall hfirst _ _ _).next fun i => (hindex _ _ _).next fun j =>
      .given (.text _)
  | includes | startsWith | endsWith =>
    exact hpart.next fun part => (hindex _ _ _).next fun i => .given (.flag _)
  | indexOf =>
    exact hpart.next fun part => (hindex _ _ _).next fun i => .given (position_alike _)
  | split => exact supplied_splitBy hn hcall _ hfirst hsecond
  | charAt =>
    refine hnumber.next fun x => ?_
    split <;> exact .given (.text _)
  | «repeat» =>
    refine hnumber.next fun x => ?_
    split
    · exact .ite (fun _ => .given (.text _)) fun _ =>
        .ite (fun _ => .given (.text _)) fun _ => .throw _
    · exact .throw _
  | concat =>
    have htexts : Advances n (fun _ _ => True) (args.mapM (Value.toText call)) :=
      .of_both hn fun _ hσ hself => Both.mapM (hargs.imp fun _ _ hv => hv.mono (Pairing.below_self hself))
        fun v w hvw => both_toText hσ (hcall.steady hσ) hvw
    exact htexts.next fun texts => .given (.text _)
  | replace => exact supplied_replacePart hn hcall _ hfirst hsecond
  | padStart => exact supplied_fillFront hn hcall _ hfirst hsecond

theorem supplied_numberMethod (m : NumberMethod) {self : Value} {args : List Value}
    (hargs : AllGiven n args) : Supplied n (m.call call self args) := by
  have hfirst : Value.Given n (argument args 0) := argument_alike hargs 0
  have hnumber := advances_toNumber hn hcall hfirst
  cases self with
  | number x =>
    cases m with
    | toFixed =>
      refine hnumber.next fun places => ?_
      split
      · exact .ite (fun _ => .given (.text _)) fun _ => .throw _
      · exact .throw _
    | toString =>
      simp only [NumberMethod.call]
      generalize argument args 0 = a at hnumber
      cases a with
      | undefined => exact .given (.text _)
      | _ =>
        refine hnumber.next fun base => ?_
        split
        · exact .ite (fun _ => .given (.text _)) fun _ => .throw _
        · exact .throw _
  | _ => exact .throw _

/-! ### Lists -/

/-- Elements of a list, some of which may be missing. -/
abbrev ElementsGiven (n : Identity) (es : List (Option Value)) : Prop :=
  List.Forall₂ (Option.Rel (Alike (.below n))) es es

theorem advances_elements {v : Value} (h : v.Given n) :
    Advances n (fun k es => ElementsGiven k es) (v.elements call) := by
  have hmember := supplied_member hn h "length"
  have hlookup := h.lookup?_rel
  have hall : ∀ {es}, ElementsGiven n es →
      Advances n (fun k es => ElementsGiven k es) (pure es) := fun hes =>
    .pure fun k hk => hes.imp fun _ _ he => rel_imp he fun _ _ hv => hv.mono (Pairing.below_le hk)
  cases v with
  | undefined | null => exact .throw _
  | list i items =>
    refine hall ?_
    cases h with
    | list hid hlength hitems =>
      rw [ElementsGiven, List.forall₂_map_left_iff, List.forall₂_map_right_iff]
      exact (forall₂_of_zip hlength hitems).imp fun _ _ h => .some h
  | _ =>
    refine hmember.bind fun k hk u hu => ?_
    refine ((advances_toNumber (Nat.lt_of_lt_of_le hn hk) hcall hu)).next fun x => .later ?_ hk
    split
    · refine .ite (fun _ => hall ?_) fun _ => .throw _
      rw [ElementsGiven, List.forall₂_map_left_iff, List.forall₂_map_right_iff]
      exact List.forall₂_same.mpr fun i _ => hlookup (toString i)
    · exact .ite (fun _ => hall .nil) fun _ => .throw _

theorem supplied_fold {f self : Value} {start : Option Value} {items : List (Value × Nat)}
    (hf : f.Given n) (hself : self.Given n) (hstart : ∀ v, start = some v → v.Given n)
    (hitems : ∀ item ∈ items, item.1.Given n) :
    Supplied n (ListMethod.fold call f self start items) := by
  have hsteps : ∀ (items : List (Value × Nat)), (∀ item ∈ items, item.1.Given n) →
      ∀ k ≥ n, ∀ total : Value, total.Given k → Supplied k (items.foldlM (fun total item =>
        call f .undefined [total, item.1, .number (Float.ofNat item.2), self]) total) := by
    intro items hitems
    induction items with
    | nil => exact fun k _ total htotal => .given htotal
    | cons item rest ih =>
      intro k hk total htotal
      rw [List.forall_mem_cons] at hitems
      have hargs : AllGiven k [total, item.1, .number (Float.ofNat item.2), self] :=
        .cons htotal (.cons (hitems.1.later hk) (.cons (.number _) (.cons (hself.later hk) .nil)))
      rw [List.foldlM_cons]
      exact (hcall.supplied (Nat.lt_of_lt_of_le hn hk) (hf.later hk) .undefined hargs).bind
        fun i hi total htotal => ih hitems.2 i (Nat.le_trans hk hi) total htotal
  cases start with
  | some v => exact hsteps items hitems n (Nat.le_refl n) v (hstart v rfl)
  | none =>
    cases items with
    | nil => exact .throw _
    | cons item rest =>
      rw [List.forall_mem_cons] at hitems
      exact hsteps rest hitems.2 n (Nat.le_refl n) item.1 hitems.1

theorem supplied_listMethod (m : ListMethod) {self : Value} {args : List Value} (h : self.Given n)
    (hargs : AllGiven n args) : Supplied n (m.call call self args) := by
  unfold ListMethod.call
  refine (advances_elements hn hcall h).bind fun k hk es hes => ?_
  have hn := Nat.lt_of_lt_of_le hn hk
  have h := h.later hk
  have hargs := AllGiven.later hk hargs
  have hfirst : Value.Given k (argument args 0) := argument_alike hargs 0
  have hsecond : Value.Given k (argument args 1) := argument_alike hargs 1
  have hindex := advances_indexArg hn hcall hsecond
  have hpresent : List.Forall₂ (PlacedAlike (.below k)) (Value.present es) (Value.present es) :=
    present_alike hes
  have hitems : ∀ item ∈ Value.present es, item.1.Given k := fun item hitem =>
    (List.forall₂_same.mp hpresent item hitem).1
  have hfilled : AllGiven k (Value.filled es) := filled_alike hes
  have hback : ∀ item : Value × Nat, item.1.Given k → Supplied k
      (call (argument args 0) (argument args 1) [item.1, .number (Float.ofNat item.2), self]) :=
    fun item hitem =>
      hcall.supplied hn hfirst hsecond (.cons hitem (.cons (.number _) (.cons h .nil)))
  have htest : ∀ σ : Pairing, σ.Exact → (∀ i < k, σ i i) → ∀ item item' : Value × Nat,
      PlacedAlike σ item item' → Both σ Eq
        (Value.truthy <$>
          call (argument args 0) (argument args 1) [item.1, .number (Float.ofNat item.2), self])
        (Value.truthy <$>
          call (argument args 0) (argument args 1) [item'.1, .number (Float.ofNat item'.2), self]) := by
    rintro σ hσ hself ⟨v, i⟩ ⟨w, j⟩ ⟨hvw, rfl⟩
    have hmono := Pairing.below_self hself
    exact (hcall.steady hσ (hfirst.mono hmono) (hsecond.mono hmono)
      (.cons hvw (.cons (.number _) (.cons (h.mono hmono) .nil)))).map fun _ _ hut => hut.truthy_eq
  have hplaced : ∀ {σ : Pairing}, (∀ i < k, σ i i) → ∀ {items : List (Value × Nat)},
      (∀ item ∈ items, item.1.Given k) → List.Forall₂ (PlacedAlike σ) items items :=
    fun hself _ hitems => List.forall₂_same.mpr fun item hitem =>
      ⟨(hitems item hitem).mono (Pairing.below_self hself), rfl⟩
  refine .ite (fun _ => ?_) fun _ => ?_
  · exact Advances.bind (P := fun _ _ => False) (.throw _) fun _ _ _ h => h.elim
  cases m with
  | map =>
    refine (Advances.mapM (Q := fun i (v : Value) => v.Given i) (fun hi hv => hv.later hi)
      fun item hitem => ?_).bind fun i hi made hmade => .newList (List.forall₂_same.mpr hmade)
    obtain ⟨e, j⟩ := item
    have he := List.forall₂_same.mp hes e (List.fst_mem_of_mem_zipIdx hitem)
    cases he with
    | none => exact .given .undefined
    | some hv => exact hback (_, j) hv
  | filter =>
    have hkept : Advances k (fun _ _ => True) _ :=
      .of_both hn fun σ hσ hself => Both.filterM (hplaced hself hitems) (htest σ hσ hself)
    refine (hkept.and_yields (Yields.filterM hitems fun _ _ => .unseen _)).bind
      fun i hi kept hkept => .newList (List.forall₂_same.mpr ?_)
    exact List.forall_mem_map.mpr fun item hitem => (hkept.2 item hitem).later hi
  | find =>
    have hall : ∀ item ∈ (Value.filled es).zipIdx, item.1.Given k := fun item hitem =>
      List.forall₂_same.mp hfilled _ (List.fst_mem_of_mem_zipIdx hitem)
    have hfound : Advances k (fun _ _ => True) _ :=
      .of_both hn fun σ hσ hself => Both.findM? (hplaced hself hall) (htest σ hσ hself)
    refine (hfound.and_yields (Yields.findM? hall fun _ _ => .unseen _)).bind
      fun i hi found hfound => .given ?_
    cases found with
    | none => exact .undefined
    | some item => exact (hfound.2 item rfl).later hi
  | some =>
    have hany : Advances k (fun _ _ => True) _ :=
      .of_both hn fun σ hσ hself => Both.anyM (hplaced hself hitems) (htest σ hσ hself)
    exact hany.next fun _ => .given (.flag _)
  | every =>
    have hevery : Advances k (fun _ _ => True) _ :=
      .of_both hn fun σ hσ hself => Both.allM (hplaced hself hitems) (htest σ hσ hself)
    exact hevery.next fun _ => .given (.flag _)
  | reduce =>
    refine supplied_fold hn hcall hfirst h (fun v hv => ?_) hitems
    have hrel := getElem?_alike hargs 1
    rw [hv] at hrel
    cases hrel with
    | some hv => exact hv
  | slice =>
    refine (advances_indexArg hn hcall hfirst _ _ _).next fun i => (hindex _ _ _).next fun j => ?_
    exact .newList (List.forall₂_take _ (List.forall₂_drop _ hfilled))
  | concat =>
    have hall : AllGiven k (self :: args) := .cons h hargs
    refine .newList (List.rel_flatMap hall fun v w hvw => ?_)
    have hone : List.Forall₂ (Alike (.below k)) [v] [w] := .cons hvw .nil
    cases hvw with
    | list hid hlength hall => exact forall₂_of_zip hlength hall
    | _ => exact hone
  | indexOf =>
    exact .ite (fun _ => .given (position_alike _)) fun _ =>
      (hindex _ _ _).next fun _ => .given (position_alike _)
  | includes =>
    exact .ite (fun _ => .given (.flag _)) fun _ => (hindex _ _ _).next fun _ => .given (.flag _)
  | join =>
    have hjoined : ∀ separator : String, Supplied k (do
        let texts ← Value.itemTexts call (Value.filled es)
        return Value.text (String.intercalate separator texts)) := fun separator => by
      have htexts : Advances k (fun _ _ => True) (Value.itemTexts call (Value.filled es)) :=
        .of_both hn fun _ hσ hself => both_itemTexts hσ (hcall.steady hσ)
          (hfilled.imp fun _ _ hv => hv.mono (Pairing.below_self hself))
      exact htexts.next fun _ => .given (.text _)
    have htext := advances_toText hn hcall hfirst
    dsimp only
    generalize argument args 0 = a at htext
    cases a with
    | undefined => exact hjoined ","
    | _ => exact htext.next fun s => hjoined s
  | flat =>
    have hflat : ∀ depth : Nat, Supplied k
        (Eval.newList (Value.flattenItems depth ((Value.present es).map Prod.fst))) :=
      fun depth => .newList (flattenItems_alike depth (fst_alike hpresent))
    have hnumber := advances_toNumber hn hcall hfirst
    dsimp only
    generalize argument args 0 = a at hnumber
    cases a with
    | undefined => exact hflat 1
    | _ => exact hnumber.next fun x => hflat _

end

end LiveTemplate
