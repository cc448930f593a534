import LiveTemplate.Proofs.Realm.Members
import LiveTemplate.Value.Methods

/-!
The methods of values, called on a receiver and arguments within a realm.
-/

namespace LiveTemplate

set_option autoImplicit false

variable {R : Realm}

theorem within_argument {args : List Value} (h : AllWithin R args) (i : Nat) :
    (argument args i).Within R .itself := by
  rw [argument, List.getD_eq_getElem?_getD]
  exact Value.within_getD fun u hu => h u (List.mem_of_getElem? hu)

theorem within_ofChars (cs : List Char) : (Value.ofChars cs).Within R .itself := .text _

theorem within_position (place : Option Nat) : (Value.position place).Within R .itself := by
  cases place with
  | none => exact .number _
  | some n => exact .number _

theorem yields_newList {vs : List Value} (h : AllWithin R vs) :
    Yields R.Supply (Value.Within R .itself) (Eval.newList vs) :=
  Yields.freshId.bind fun _ hid => .pure (.list (fun _ => hid) h)

variable {call : Call} (hcall : call.Within R)
include hcall

theorem yields_indexArg {v : Value} (h : v.Within R .itself) (index : Float → Nat → Nat)
    (length default : Nat) :
    Yields R.Supply (fun _ => True) (Value.indexArg call index v length default) := by
  have hnumber : Yields R.Supply (fun _ => True) (do return index (← v.toNumber call) length) :=
    (h.toNumber hcall).bind fun _ _ => .pure trivial
  cases v with
  | undefined => exact .pure trivial
  | _ => exact hnumber

theorem yields_conversion (c : Conversion) {self : Value} (h : self.Within R .itself) :
    Yields R.Supply (Value.Within R .itself) (c.call call self) := by
  have hkind : Yields R.Supply (Value.Within R .itself)
      (pure (.text ("[object " ++ self.kindName ++ "]")) : Eval Value) := .pure (.text _)
  cases c with
  | kindText => exact hkind
  | itself => exact Yields.ite (fun _ => .throw _) fun _ => .pure h
  | listText =>
    simp only [Conversion.call]
    refine Yields.ite (fun _ => .throw _) fun _ => ?_
    refine (h.member (Realm.reads_of_not_mem (by decide))).bind fun f hf => ?_
    exact Yields.ite (fun _ => hcall hf h (allWithin_nil R)) fun _ => hkind
  | markupText =>
    exact Yields.ite (fun _ => .throw _) fun _ => h.member (Realm.reads_of_not_mem (by decide))
  | functionText => exact Yields.ite (fun _ => .pure (.text _)) fun _ => .throw _
  | textItself => cases self <;> first | exact .throw _ | exact .pure (.text _)
  | numberItself => cases self <;> first | exact .throw _ | exact .pure (.number _)
  | flagText => cases self <;> first | exact .throw _ | exact .pure (.text _)
  | flagItself => cases self <;> first | exact .throw _ | exact .pure (.flag _)
  | dateText => cases self <;> first | exact .throw _ | exact .pure (.text _)
  | dateNumber => cases self <;> first | exact .throw _ | exact .pure (.number _)
  | dateInterchange =>
    cases self with
    | date i t =>
      cases t with
      | none => exact .pure .null
      | some t => exact .pure (.text _)
    | _ => exact .throw _

/-! ### Texts -/

theorem yields_splitBy (cs : List Char) {separator limit : Value}
    (hs : separator.Within R .itself) (hl : limit.Within R .itself) :
    Yields R.Supply (Value.Within R .itself) (TextMethod.splitBy call cs separator limit) := by
  have htexts : ∀ pieces : List (List Char), Yields R.Supply (Value.Within R .itself)
      (Eval.newList (pieces.map Value.ofChars)) := fun pieces =>
    yields_newList (List.forall_mem_map.mpr fun _ _ => .text _)
  have hnumber := hl.toNumber hcall
  have htext := hs.toText hcall
  unfold TextMethod.splitBy
  cases limit with
  | undefined => exact htext.bind fun _ _ => htexts _
  | _ => exact hnumber.bind fun _ _ => htext.bind fun _ _ => htexts _

theorem yields_replacePart (cs : List Char) {part replacement : Value}
    (hp : part.Within R .itself) (hr : replacement.Within R .itself) :
    Yields R.Supply (Value.Within R .itself)
      (TextMethod.replacePart call cs part replacement) := by
  unfold TextMethod.replacePart
  refine (hp.toText hcall).bind fun s _ => ?_
  refine Yields.ite_bind (P := fun _ => True) (fun _ => .pure trivial)
    (fun _ => hr.toText hcall) fun template _ => ?_
  dsimp only
  cases Text.cut? s.toList cs with
  | none => exact .pure (.text _)
  | some cut =>
    obtain ⟨before, after⟩ := cut
    refine Yields.ite (fun _ => ?_) fun _ => .pure (.text _)
    refine (hcall hr .undefined ?_).bind fun v hv => ?_
    · simp only [AllWithin, List.forall_mem_cons]
      exact ⟨.text _, .number _, .text _, allWithin_nil R⟩
    · exact (hv.toText hcall).bind fun _ _ => .pure (.text _)

theorem yields_fillFront (cs : List Char) {length filler : Value} (hl : length.Within R .itself)
    (hf : filler.Within R .itself) :
    Yields R.Supply (Value.Within R .itself) (TextMethod.fillFront call cs length filler) := by
  have htext := hf.toText hcall
  unfold TextMethod.fillFront
  refine (hl.toNumber hcall).bind fun x _ => ?_
  refine Yields.ite (fun _ => .pure (.text _)) fun _ => ?_
  cases Number.toInt? x with
  | none =>
    have hfilled : ∀ s : String, Yields R.Supply (Value.Within R .itself)
        (if s.isEmpty then return Value.ofChars cs else throw .outOfRange : Eval Value) :=
      fun s => Yields.ite (fun _ => .pure (.text _)) fun _ => .throw _
    cases filler with
    | undefined => exact hfilled " "
    | _ => exact htext.bind fun s _ => hfilled s
  | some n =>
    have hfilled : ∀ s : String, Yields R.Supply (Value.Within R .itself)
        (if s.isEmpty then return Value.ofChars cs
          else if n.toNat < Value.longestText then
            return Value.ofChars (Text.padFront n.toNat s.toList cs)
          else throw .outOfRange : Eval Value) :=
      fun s => Yields.ite (fun _ => .pure (.text _)) fun _ =>
        Yields.ite (fun _ => .pure (.text _)) fun _ => .throw _
    cases filler with
    | undefined => exact hfilled " "
    | _ => exact htext.bind fun s _ => hfilled s

theorem yields_textMethod (m : TextMethod) {self : Value} {args : List Value}
    (h : self.Within R .itself) (hargs : AllWithin R args) :
    Yields R.Supply (Value.Within R .itself) (m.call call self args) := by
  have hfirst := within_argument hargs 0
  have hsecond := within_argument hargs 1
  have hpart := hfirst.toText hcall
  have hindex := yields_indexArg hcall hsecond
  rw [TextMethod.call]
  refine Yields.ite (fun _ => .throw _) fun _ => ?_
  refine (h.toText hcall).bind fun s _ => ?_
  cases m with
  | toUpperCase | toLowerCase | trim => exact .pure (.text _)
  | slice =>
    exact (yields_indexArg hcall hfirst _ _ _).bind fun i _ => (hindex _ _ _).bind fun j _ =>
      .pure (.text _)
  | includes | startsWith | endsWith =>
    exact hpart.bind fun part _ => (hindex _ _ _).bind fun i _ => .pure (.flag _)
  | indexOf =>
    exact hpart.bind fun part _ => (hindex _ _ _).bind fun i _ => .pure (within_position _)
  | split => exact yields_splitBy hcall _ hfirst hsecond
  | charAt =>
    refine (hfirst.toNumber hcall).bind fun x _ => ?_
    rcases Number.toInt? x with _ | n
    · exact .pure (.text _)
    · cases n with
      | ofNat n => exact .pure (.text _)
      | negSucc n => exact .pure (.text _)
  | «repeat» =>
    refine (hfirst.toNumber hcall).bind fun x _ => ?_
    rcases Number.toInt? x with _ | n
    · exact .throw _
    · cases n with
      | negSucc n => exact .throw _
      | ofNat n =>
        exact Yields.ite (fun _ => .pure (.text _)) fun _ =>
          Yields.ite (fun _ => .pure (.text _)) fun _ => .throw _
  | concat =>
    exact (Yields.mapM (Q := fun _ => True) hargs fun v hv => hv.toText hcall).bind fun texts _ =>
      .pure (.text _)
  | replace => exact yields_replacePart hcall _ hfirst hsecond
  | padStart => exact yields_fillFront hcall _ hfirst hsecond

/-! ### Numbers -/

theorem yields_numberMethod (m : NumberMethod) {self : Value} {args : List Value}
    (hargs : AllWithin R args) :
    Yields R.Supply (Value.Within R .itself) (m.call call self args) := by
  have hfirst := within_argument hargs 0
  have hnumber := hfirst.toNumber hcall
  cases self with
  | number x =>
    cases m with
    | toFixed =>
      refine hnumber.bind fun places _ => ?_
      rcases Number.toInt? places with _ | n
      · exact .throw _
      · cases n with
        | negSucc n => exact .throw _
        | ofNat n => exact Yields.ite (fun _ => .pure (.text _)) fun _ => .throw _
    | toString =>
      simp only [NumberMethod.call]
      generalize argument args 0 = a at hnumber
      cases a with
      | undefined => exact .pure (.text _)
      | _ =>
        refine hnumber.bind fun base _ => ?_
        rcases Number.toInt? base with _ | n
        · exact .throw _
        · cases n with
          | negSucc n => exact .throw _
          | ofNat n => exact Yields.ite (fun _ => .pure (.text _)) fun _ => .throw _
  | _ => exact .throw _

end LiveTemplate
