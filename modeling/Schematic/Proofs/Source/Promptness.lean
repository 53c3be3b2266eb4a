import Mathlib.Tactic.SplitIfs
import Schematic.Proofs.Source.Following
import Schematic.Proofs.Source.Spacing
import Schematic.Proofs.Source.Spelling

/-! Faults of a line, and what is written behind them. A reader looks no further than the token that it stops at,
so that only what is missing at the end of a line can be made good behind it. Main statement: a line with any other
fault has that fault whatever is written behind it. -/
namespace Schematic

/-- The fault shows at the end of a line only: a token is missing there, or the component is not complete. -/
def Cause.AtEnd : Cause → Prop
  | outOfTokens _ | outOfTokensForNumber | missingAttribute _ | invalidAttribute _ => True
  | _ => False

def Failure.AtEnd : Failure → Prop
  | .diagnostic d => d.cause.AtEnd
  | .fault _ => False

theorem Component.atEnd_of_verify {c : Component} {e : Failure} (hc : c.kind?.isSome)
    (h : c.verify = .error e) : e.AtEnd := by
  cases c with
  | foreign text => cases hc
  | canvas c => cases h
  | chip c | net n | pin p | wire w =>
    simp only [verify] at h
    split_ifs at h
    cases h
    trivial

namespace Source

/-- The same place in a line with further tokens. -/
def Cursor.followedBy (s : Cursor) (ts : List Token) : Cursor := ⟨s.current, s.rest ++ ts⟩

namespace Reader

/-- A failure before the end stays as it is when the line has further tokens. -/
def FailsEarly {α : Type} (m : Reader α) : Prop :=
  ∀ ⦃s e s'⦄, m s = .error e s' → ¬e.AtEnd →
    ∀ ts, m (s.followedBy ts) = .error e (s'.followedBy ts)

/-- The reader stops by itself, so that it does the same when the line has further tokens. -/
structure Streams {α : Type} (m : Reader α) : Prop where
  ok : ∀ ⦃s a s'⦄, m s = .ok a s' → ∀ ts, m (s.followedBy ts) = .ok a (s'.followedBy ts)
  failsEarly : FailsEarly m

section

variable {α β : Type} {m : Reader α} {f : α → Reader β}

theorem streams_pure (a : α) : Streams (pure a) := by
  constructor
  · rintro s _ _ ⟨⟩ ts
    rfl
  · rintro s e s' ⟨⟩

theorem streams_throw (e : Failure) : Streams (throw e : Reader α) := by
  constructor
  · rintro s a s' ⟨⟩
  · rintro s _ _ ⟨⟩ - ts
    rfl

theorem Streams.bind_failsEarly (hm : Streams m) (hf : ∀ a, FailsEarly (f a)) :
    FailsEarly (m >>= f) := by
  intro s e s'' h he ts
  rcases bind_eq_error.mp h with h | ⟨a, s', ha, h⟩
  · exact bind_eq_error.mpr (.inl (hm.failsEarly h he ts))
  · exact bind_eq_error.mpr (.inr ⟨a, _, hm.ok ha ts, hf a h he ts⟩)

theorem Streams.bind (hm : Streams m) (hf : ∀ a, Streams (f a)) : Streams (m >>= f) where
  ok := by
    intro s b s'' h ts
    obtain ⟨a, s', ha, h⟩ := bind_eq_ok_iff.mp h
    exact bind_eq_ok_iff.mpr ⟨a, _, hm.ok ha ts, (hf a).ok h ts⟩
  failsEarly := hm.bind_failsEarly fun a => (hf a).failsEarly

end

theorem streams_expect (kind : TokenKind) (what : String) : Streams (expect kind what) := by
  constructor
  · rintro ⟨current, _ | ⟨t, rest⟩⟩ a s' h ts
    · cases h
    · simp only [expect] at h
      split_ifs at h with hk
      cases h
      exact if_pos hk
  · rintro ⟨current, _ | ⟨t, rest⟩⟩ e s' h he ts
    · cases h
      exact absurd trivial he
    · simp only [expect] at h
      split_ifs at h with hk
      cases h
      exact if_neg hk

theorem streams_expectNumber : Streams expectNumber := by
  constructor
  · rintro ⟨current, _ | ⟨t, rest⟩⟩ a s' h ts
    · cases h
    · simp only [expectNumber] at h
      split_ifs at h with hk
      split at h
      · next hn =>
        cases h
        simp [Cursor.followedBy, expectNumber, hk, hn]
      · cases h
  · rintro ⟨current, _ | ⟨t, rest⟩⟩ e s' h he ts
    · cases h
      exact absurd trivial he
    · simp only [expectNumber] at h
      split_ifs at h with hk
      · split at h
        · cases h
        · next hn =>
          cases h
          simp [Cursor.followedBy, expectNumber, hk, hn]
      · cases h
        simp [Cursor.followedBy, expectNumber, hk]

theorem streams_expectVec : Streams expectVec :=
  streams_expectNumber.bind fun _ => streams_expectNumber.bind fun _ => streams_pure _

theorem streams_expectLabel : Streams expectLabel :=
  (streams_expect _ _).bind fun _ => streams_pure _

theorem streams_labels : Streams labels := by
  constructor
  · rintro ⟨current, rest⟩ ls s' h ts
    change labelsBefore rest current = _ at h
    change labelsBefore (rest ++ ts) current = _
    induction rest generalizing current ls with
    | nil => cases h
    | cons t rest ih =>
      rw [List.cons_append, labelsBefore]
      rw [labelsBefore] at h
      split_ifs at h ⊢ with hdot hlabel
      · cases h
        rfl
      · split at h
        · next hrest =>
          cases h
          rw [ih _ hrest]
        · cases h
  · rintro ⟨current, rest⟩ e s' h he ts
    change labelsBefore rest current = _ at h
    change labelsBefore (rest ++ ts) current = _
    induction rest generalizing current with
    | nil =>
      cases h
      exact absurd trivial he
    | cons t rest ih =>
      rw [List.cons_append, labelsBefore]
      rw [labelsBefore] at h
      split_ifs at h ⊢ with hdot hlabel
      · split at h
        · cases h
        · next hrest =>
          cases h
          rw [ih _ hrest]
      · cases h
        rfl

theorem streams_value : Streams value := by
  refine (streams_expect _ _).bind fun name => ?_
  split_ifs
  · exact streams_pure _
  · exact streams_pure _
  · exact streams_labels.bind fun _ => streams_pure _
  · exact streams_labels.bind fun _ => streams_pure _
  · exact streams_throw _

theorem streams_color : Streams color := by
  refine (streams_expect _ _).bind fun name => ?_
  split
  · exact streams_pure _
  · exact streams_throw _

theorem streams_arguments (n : AttributeName) : Streams (arguments n) := by
  cases n with
  | bounds | position | start | stop => exact streams_expectVec.bind fun _ => streams_pure _
  | row | number => exact streams_expectNumber.bind fun _ => streams_pure _
  | type => exact (streams_expect _ _).bind fun _ => streams_pure _
  | color => exact streams_color.bind fun _ => streams_pure _
  | label => exact streams_expectLabel.bind fun _ => streams_pure _
  | value => exact streams_value.bind fun _ => streams_pure _

theorem streams_attributeGroup : Streams attributeGroup := by
  refine (streams_expect _ _).bind fun name => ?_
  split
  · exact streams_arguments _
  · exact streams_throw _

theorem attributes_of_error {c : Component} {s s' : Cursor} {e : Failure} (hs : s.rest ≠ [])
    (h : attributeGroup s = .error e s') : attributes c s = .error e s' := by
  rw [attributes]
  split
  · next hnil => exact absurd hnil hs
  · split
    · next h' =>
      rw [h] at h'
      cases h'
      rfl
    · next h' =>
      rw [h] at h'
      cases h'

/-- The attribute of the first group is applied before the next group is looked at. -/
theorem attributes_of_ok {c : Component} {s s' : Cursor} {a : Attribute}
    (h : attributeGroup s = .ok a s') : attributes c s =
      match a.apply c with
      | .error e _ => .error e s'
      | .ok () c' => attributes c' s' := by
  have hlt := takes_attributeGroup s a s' h
  rw [attributes]
  split
  · next hnil => simp [hnil] at hlt
  · split
    · next h' =>
      rw [h] at h'
      cases h'
    · next h' =>
      rw [h] at h'
      cases h'
      rfl

theorem failsEarly_attributes (c : Component) : FailsEarly (attributes c) := by
  intro s e s' h he ts
  induction hn : s.rest.length using Nat.strongRecOn generalizing c s with
  | ind n ih =>
    by_cases hs : s.rest = []
    · rw [attributes, hs] at h
      cases h
    · cases hgroup : attributeGroup s with
      | error e₁ s₁ =>
        rw [attributes_of_error hs hgroup] at h
        cases h
        have hnonempty : (s.followedBy ts).rest ≠ [] := List.append_ne_nil_of_left_ne_nil hs ts
        exact attributes_of_error hnonempty (streams_attributeGroup.failsEarly hgroup he ts)
      | ok a s₁ =>
        rw [attributes_of_ok hgroup] at h
        rw [attributes_of_ok (streams_attributeGroup.ok hgroup ts)]
        cases happly : a.apply c with
        | error e₁ c₁ =>
          rw [happly] at h
          cases h
          rfl
        | ok _ c₁ =>
          rw [happly] at h
          exact ih _ (hn ▸ takes_attributeGroup s a s₁ hgroup) c₁ h rfl

theorem failsEarly_declaration : FailsEarly component.declaration := by
  refine (streams_expect _ _).bind_failsEarly fun _ => (streams_expect _ _).bind_failsEarly fun name => ?_
  split
  · exact (streams_throw _).failsEarly
  · next k _ =>
    intro s e s' h he ts
    rcases bind_eq_error.mp h with h | ⟨c, s₁, hc, hverify⟩
    · exact bind_eq_error.mpr (.inl (failsEarly_attributes _ h he ts))
    · -- What is not complete shows at the end.
      cases hcomplete : c.verify with
      | error e₁ =>
        rw [hcomplete] at hverify
        cases hverify
        have hkind : c.kind?.isSome := by simp [kind?_of_attributes hc]
        exact absurd (c.atEnd_of_verify hkind hcomplete) he
      | ok _ =>
        rw [hcomplete] at hverify
        cases hverify

theorem failsEarly_component : FailsEarly component := by
  rintro ⟨current, _ | ⟨t, rest⟩⟩ e s' h he ts
  · cases h
  · exact failsEarly_declaration h he ts

end Reader

theorem component_of_fault {ts : List Token} {e : Failure} {s : Cursor}
    (h : Reader.component (.ofTokens ts) = .error e s) (he : ¬e.AtEnd) (us : List Token) :
    Reader.component (.ofTokens (ts ++ us)) = .error e (s.followedBy us) :=
  Reader.failsEarly_component h he us

theorem readLine_of_fault {a w b : String} {us : List Token} {e : Failure} (hw : IsBreak w.toList)
    (hb : tokens b = .ok us) (h : readLine a = .error e) (he : ¬e.AtEnd) :
    readLine (a ++ w ++ b) = .error e := by
  have hwords := tokens_append_break hw a b
  rw [hb] at hwords
  cases hts : tokens a with
  | error e' =>
    rw [readLine_of_tokens_eq_error hts] at h
    cases h
    rw [hts] at hwords
    exact readLine_of_tokens_eq_error hwords
  | ok ts =>
    replace hwords : tokens (a ++ w ++ b) = .ok (ts ++ us) := by
      rw [hwords, hts]
      rfl
    unfold readLine at h ⊢
    rw [hts] at h
    rw [hwords]
    dsimp only at h ⊢
    split at h
    · next hfault =>
      cases h
      rw [component_of_fault hfault he us]
    · cases h

/-- A fault before the end of a line is not changed, hidden or mended by anything that is written behind it, so
that nothing in front of a line that is read has such a fault. On lines whose further words are recognized, the
same holds of what is written behind white space. -/
theorem faults_stand :
    (∀ ts us e s, Reader.component (.ofTokens ts) = .error e s → ¬e.AtEnd →
      Reader.component (.ofTokens (ts ++ us)) = .error e (s.followedBy us)) ∧
    (∀ ts us c? s, Reader.component (.ofTokens ts) = .ok c? s → us <+: ts →
      ∀ e s', Reader.component (.ofTokens us) = .error e s' → e.AtEnd) ∧
    ∀ (a w b : String) (us : List Token) (e : Failure), IsBreak w.toList → tokens b = .ok us →
      readLine a = .error e → ¬e.AtEnd → readLine (a ++ w ++ b) = .error e := by
  refine ⟨fun ts us e s h he => component_of_fault h he us, ?_,
    fun a w b us e hw hb h he => readLine_of_fault hw hb h he⟩
  rintro ts us c? s hread ⟨vs, rfl⟩ e s' hfault
  by_contra he
  rw [component_of_fault hfault he vs] at hread
  cases hread

/-- A net that is given a label. -/
def labeledNet : List Token :=
  [⟨.separator, ":"⟩, .word "net", .word "label", ⟨.identifier, "'a"⟩]

/-- A canvas that is given its width only. -/
def narrowCanvas : List Token :=
  [⟨.separator, ":"⟩, .word "meta", .word "bounds", .numeral 4]

theorem faults_stand_labeledNet :
    Reader.component (.ofTokens (labeledNet ++ [.word "type", .word "vcc"])) =
      .error (Cause.inapplicableAttribute "label" "net")
        ⟨some ⟨.identifier, "'a"⟩, [.word "type", .word "vcc"]⟩ ∧
    Reader.component (.ofTokens narrowCanvas) = .error Cause.outOfTokensForNumber ⟨some (.numeral 4), []⟩ ∧
    Failure.AtEnd Cause.outOfTokensForNumber ∧
    readLine (":net label 'a" ++ "\t" ++ "type vcc") =
      .error (Cause.inapplicableAttribute "label" "net") := by
  obtain ⟨hstand, hprefix, hlines⟩ := faults_stand
  have hlabel : Reader.component (.ofTokens labeledNet) =
      .error (Cause.inapplicableAttribute "label" "net") ⟨some ⟨.identifier, "'a"⟩, []⟩ := by
    decide +kernel
  have hnarrow : Reader.component (.ofTokens narrowCanvas) =
      .error Cause.outOfTokensForNumber ⟨some (.numeral 4), []⟩ := by
    decide +kernel
  have hcanvas : Reader.component (.ofTokens (narrowCanvas ++ [.numeral 5])) =
      .ok (some (.canvas { bounds := ⟨4, 5⟩ })) ⟨some (.numeral 5), []⟩ := by
    decide +kernel
  have hline : readLine ":net label 'a" = .error (Cause.inapplicableAttribute "label" "net") := by
    decide +kernel
  have htype : tokens "type vcc" = .ok [.word "type", .word "vcc"] := by decide +kernel
  have htab : IsBreak "\t".toList := ⟨by decide, List.all_eq_true.mp (by decide)⟩
  refine ⟨hstand _ _ _ _ hlabel id, hnarrow, ?_, hlines _ _ _ _ _ htab htype hline id⟩
  exact hprefix _ narrowCanvas _ _ hcanvas (List.prefix_append _ _) _ _ hnarrow

end Source
end Schematic
