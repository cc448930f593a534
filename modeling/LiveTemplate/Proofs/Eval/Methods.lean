import LiveTemplate.Proofs.Eval.Plain
import LiveTemplate.Value.Methods

/-!
The methods of values, called on alike receivers with alike arguments.
-/

namespace LiveTemplate

set_option autoImplicit false

theorem argument_alike {σ : Pairing} {args args' : List Value}
    (h : List.Forall₂ (Alike σ) args args') (i : Nat) :
    Alike σ (argument args i) (argument args' i) := by
  rw [argument, argument, List.getD_eq_getElem?_getD, List.getD_eq_getElem?_getD]
  exact getD_alike (getElem?_alike h i)

section
variable {σ : Pairing} (hσ : σ.Exact) {call : Call} (hcall : Steady σ call)
include hσ hcall

theorem both_indexArg {v w : Value} (h : Alike σ v w) (index : Float → Nat → Nat)
    (length default : Nat) : Both σ Eq (Value.indexArg call index v length default)
      (Value.indexArg call index w length default) := by
  have hnumber : Both σ Eq (do return index (← v.toNumber call) length)
      (do return index (← w.toNumber call) length) :=
    (both_toNumber hσ hcall h).bind fun x y hxy => .pure (by rw [hxy])
  cases h with
  | undefined => exact .pure rfl
  | _ => exact hnumber

theorem both_conversion (c : Conversion) {self self' : Value} (h : Alike σ self self') :
    Both σ (Alike σ) (c.call call self) (c.call call self') := by
  have hkind : Both σ (Alike σ) (pure (.text ("[object " ++ self.kindName ++ "]")) : Eval Value)
      (pure (.text ("[object " ++ self'.kindName ++ "]"))) := by
    rw [h.kindName_eq]
    exact .pure (.text _)
  cases c with
  | kindText => exact hkind
  | itself => exact Both.ite h.isAbsent_eq (fun _ => .throw _) fun _ => .pure h
  | listText =>
    simp only [Conversion.call]
    refine Both.ite h.isAbsent_eq (fun _ => .throw _) fun _ => ?_
    refine (both_member hσ h "join").bind fun f g hfg => ?_
    exact Both.ite hfg.isFunction_eq (fun _ => hcall hfg h .nil) fun _ => hkind
  | markupText =>
    exact Both.ite h.isAbsent_eq (fun _ => .throw _) fun _ => both_member hσ h "html"
  | functionText =>
    exact Both.ite h.isFunction_eq (fun _ => .pure (.text _)) fun _ => .throw _
  | textItself => cases h <;> first | exact .throw _ | exact .pure (.text _)
  | numberItself => cases h <;> first | exact .throw _ | exact .pure (.number _)
  | flagText => cases h <;> first | exact .throw _ | exact .pure (.text _)
  | flagItself => cases h <;> first | exact .throw _ | exact .pure (.flag _)
  | dateText => cases h <;> first | exact .throw _ | exact .pure (.text _)
  | dateNumber => cases h <;> first | exact .throw _ | exact .pure (.number _)
  | dateInterchange =>
    cases h with
    | date t hid =>
      cases t with
      | none => exact .pure .null
      | some t => exact .pure (.text _)
    | _ => exact .throw _

/-! ### Texts -/

theorem both_pieces (cs : List Char) {separator separator' : Value}
    (hs : Alike σ separator separator') (n : Nat) :
    Both σ (Alike σ)
      (do
        let part ← separator.toText call
        Eval.newList (((match separator with
          | .undefined => [cs]
          | _ => Text.splitOn part.toList cs).take n).map Value.ofChars))
      (do
        let part ← separator'.toText call
        Eval.newList (((match separator' with
          | .undefined => [cs]
          | _ => Text.splitOn part.toList cs).take n).map Value.ofChars)) := by
  have htexts : ∀ pieces : List (List Char), Both σ (Alike σ)
      (Eval.newList (pieces.map Value.ofChars)) (Eval.newList (pieces.map Value.ofChars)) :=
    fun pieces => .newList (List.forall₂_same.mpr fun v hv => by
      obtain ⟨piece, -, rfl⟩ := List.mem_map.mp hv
      exact .text _)
  refine (both_toText hσ hcall hs).bind fun part part' hpart => ?_
  subst hpart
  cases hs <;> exact htexts _

theorem both_splitBy (cs : List Char) {separator separator' limit limit' : Value}
    (hs : Alike σ separator separator') (hl : Alike σ limit limit') :
    Both σ (Alike σ) (TextMethod.splitBy call cs separator limit)
      (TextMethod.splitBy call cs separator' limit') := by
  have hpieces := both_pieces hσ hcall cs hs
  have hnumber := both_toNumber hσ hcall hl
  unfold TextMethod.splitBy
  cases hl with
  | undefined => exact hpieces _
  | _ => exact hnumber.bind fun x y hxy => hxy ▸ hpieces _

theorem both_replacePart (cs : List Char) {part part' replacement replacement' : Value}
    (hp : Alike σ part part') (hr : Alike σ replacement replacement') :
    Both σ (Alike σ) (TextMethod.replacePart call cs part replacement)
      (TextMethod.replacePart call cs part' replacement') := by
  unfold TextMethod.replacePart
  refine (both_toText hσ hcall hp).bind fun s s' hs => ?_
  subst hs
  refine Both.ite_bind (R := Eq) hr.isFunction_eq (fun _ => .pure rfl)
    (fun _ => both_toText hσ hcall hr) fun template template' ht => ?_
  subst ht
  dsimp only
  cases Text.cut? s.toList cs with
  | none => exact .pure (.text _)
  | some cut =>
    obtain ⟨before, after⟩ := cut
    have hargs : List.Forall₂ (Alike σ)
        [Value.ofChars s.toList, Value.number (Float.ofNat (Text.width before)), Value.ofChars cs]
        [Value.ofChars s.toList, Value.number (Float.ofNat (Text.width before)), Value.ofChars cs] :=
      .cons (.text _) (.cons (.number _) (.cons (.text _) .nil))
    refine Both.ite hr.isFunction_eq (fun _ => ?_) fun _ => .pure (.text _)
    refine (hcall hr .undefined hargs).bind fun v w hvw => ?_
    refine (both_toText hσ hcall hvw).bind fun t t' ht => ?_
    subst ht
    exact .pure (.text _)

theorem both_fillFront (cs : List Char) {length length' filler filler' : Value}
    (hl : Alike σ length length') (hf : Alike σ filler filler') :
    Both σ (Alike σ) (TextMethod.fillFront call cs length filler)
      (TextMethod.fillFront call cs length' filler') := by
  have htext := both_toText hσ hcall hf
  unfold TextMethod.fillFront
  refine (both_toNumber hσ hcall hl).bind fun x y hxy => ?_
  subst hxy
  refine Both.ite rfl (fun _ => .pure (.text _)) fun _ => ?_
  cases Number.toInt? x with
  | none =>
    have hfilled : ∀ s : String, Both σ (Alike σ)
        (if s.isEmpty then return Value.ofChars cs else throw .outOfRange)
        (if s.isEmpty then return Value.ofChars cs else throw .outOfRange) :=
      fun s => Both.ite rfl (fun _ => .pure (.text _)) fun _ => .throw _
    cases hf with
    | undefined => exact hfilled " "
    | _ => exact htext.bind fun s s' hs => hs ▸ hfilled s
  | some n =>
    have hfilled : ∀ s : String, Both σ (Alike σ)
        (if s.isEmpty then return Value.ofChars cs
          else if n.toNat < Value.longestText then
            return Value.ofChars (Text.padFront n.toNat s.toList cs)
          else throw .outOfRange)
        (if s.isEmpty then return Value.ofChars cs
          else if n.toNat < Value.longestText then
            return Value.ofChars (Text.padFront n.toNat s.toList cs)
          else throw .outOfRange) := by
      intro s
      refine Both.ite rfl (fun _ => .pure (.text _)) fun _ => ?_
      split
      · exact .pure (.text _)
      · exact .throw _
    cases hf with
    | undefined => exact hfilled " "
    | _ => exact htext.bind fun s s' hs => hs ▸ hfilled s

theorem both_textMethod (m : TextMethod) {self self' : Value} {args args' : List Value}
    (h : Alike σ self self') (hargs : List.Forall₂ (Alike σ) args args') :
    Both σ (Alike σ) (m.call call self args) (m.call call self' args') := by
  have hfirst := argument_alike hargs 0
  have hsecond := argument_alike hargs 1
  have hpart := both_toText hσ hcall hfirst
  have hindex := fun index length default =>
    both_indexArg hσ hcall hsecond index length default
  rw [TextMethod.call, TextMethod.call]
  refine Both.ite h.isAbsent_eq (fun _ => .throw _) fun _ => ?_
  refine (both_toText hσ hcall h).bind fun s s' hs => ?_
  subst hs
  cases m with
  | toUpperCase | toLowerCase | trim => exact .pure (.text _)
  | slice =>
    refine (both_indexArg hσ hcall hfirst _ _ _).bind fun i i' hi => ?_
    refine (hindex _ _ _).bind fun j j' hj => ?_
    subst hi hj
    exact .pure (.text _)
  | includes | startsWith | endsWith =>
    refine hpart.bind fun part part' hpart => ?_
    refine (hindex _ _ _).bind fun i i' hi => ?_
    subst hpart hi
    exact .pure (.flag _)
  | indexOf =>
    refine hpart.bind fun part part' hpart => ?_
    refine (hindex _ _ _).bind fun i i' hi => ?_
    subst hpart hi
    cases Text.find? part.toList i s.toList with
    | none => exact .pure (.number _)
    | some n => exact .pure (.number _)
  | split => exact both_splitBy hσ hcall _ hfirst hsecond
  | charAt =>
    refine (both_toNumber hσ hcall hfirst).bind fun x y hxy => ?_
    subst hxy
    rcases Number.toInt? x with _ | n
    · exact .pure (.text _)
    · cases n with
      | ofNat n => exact .pure (.text _)
      | negSucc n => exact .pure (.text _)
  | «repeat» =>
    refine (both_toNumber hσ hcall hfirst).bind fun x y hxy => ?_
    subst hxy
    rcases Number.toInt? x with _ | n
    · exact .throw _
    · cases n with
      | negSucc n => exact .throw _
      | ofNat n =>
        dsimp only
        split
        · exact .pure (.text _)
        · split
          · exact .pure (.text _)
          · exact .throw _
  | concat =>
    refine (Both.mapM (S := Eq) hargs fun v w hvw => both_toText hσ hcall hvw).bind
      fun texts texts' ht => ?_
    rw [List.forall₂_eq_eq_eq] at ht
    subst ht
    exact .pure (.text _)
  | replace => exact both_replacePart hσ hcall _ hfirst hsecond
  | padStart => exact both_fillFront hσ hcall _ hfirst hsecond

/-! ### Numbers -/

theorem both_numberMethod (m : NumberMethod) {self self' : Value} {args args' : List Value}
    (h : Alike σ self self') (hargs : List.Forall₂ (Alike σ) args args') :
    Both σ (Alike σ) (m.call call self args) (m.call call self' args') := by
  have hfirst := argument_alike hargs 0
  have hnumber := both_toNumber hσ hcall hfirst
  cases h with
  | number x =>
    cases m with
    | toFixed =>
      refine hnumber.bind fun places places' hp => ?_
      subst hp
      rcases Number.toInt? places with _ | n
      · exact .throw _
      · cases n with
        | negSucc n => exact .throw _
        | ofNat n =>
          dsimp only
          split
          · exact .pure (.text _)
          · exact .throw _
    | toString =>
      simp only [NumberMethod.call]
      generalize argument args 0 = a at hfirst hnumber
      generalize argument args' 0 = b at hfirst hnumber
      cases hfirst with
      | undefined => exact .pure (.text _)
      | _ =>
        refine hnumber.bind fun base base' hb => ?_
        subst hb
        rcases Number.toInt? base with _ | n
        · exact .throw _
        · cases n with
          | negSucc n => exact .throw _
          | ofNat n =>
            dsimp only
            split
            · exact .pure (.text _)
            · exact .throw _
  | _ => exact .throw _

end

end LiveTemplate
