import Mathlib.Tactic.SplitIfs
import Schematic.Proofs.Source.Grammar

/-! Readers and the grammar. A reader follows a grammar if what it takes is what the grammar has for what it
gives, and a reader composed of such readers follows the composed grammar. Main statement: tokens are read as
a component exactly if they declare it, and all other tokens but none at all are answered with a
diagnostic. -/
namespace Schematic.Source

namespace Reader

/-- The reader takes exactly the tokens that the grammar has for what it gives. -/
def Follows {α : Type} (m : Reader α) (G : List Token → α → Prop) : Prop :=
  ∀ s a rest, (∃ current, m s = .ok a ⟨current, rest⟩) ↔ ∃ ts, s.rest = ts ++ rest ∧ G ts a

/-- The reader takes all tokens, and these are what the grammar has for what it gives. -/
def Exhausts {α : Type} (m : Reader α) (G : List Token → α → Prop) : Prop :=
  ∀ s a rest, (∃ current, m s = .ok a ⟨current, rest⟩) ↔ rest = [] ∧ G s.rest a

section

variable {α β : Type} {m : Reader α} {f : α → Reader β} {G : List Token → α → Prop}

theorem exists_bind_eq_ok_iff {s : Cursor} {b : β} {rest : List Token} :
    (∃ current, (m >>= f) s = .ok b ⟨current, rest⟩) ↔
      ∃ a s', m s = .ok a s' ∧ ∃ current, f a s' = .ok b ⟨current, rest⟩ := by
  simp only [bind_eq_ok_iff]
  constructor
  · rintro ⟨current, a, s', hm, hf⟩
    exact ⟨a, s', hm, current, hf⟩
  · rintro ⟨a, s', hm, current, hf⟩
    exact ⟨current, a, s', hm, hf⟩

theorem Follows.congr {H : List Token → α → Prop} (h : Follows m G)
    (hG : ∀ ts a, H ts a ↔ G ts a) : Follows m H := by
  intro s a rest
  simp only [h s a rest, hG]

theorem follows_pure (a : α) : Follows (pure a) fun ts b => ts = [] ∧ b = a := by
  rintro ⟨current, tokens⟩ b rest
  simp [pure, EStateM.pure, eq_comm, and_comm]

theorem follows_throw (e : Failure) {G : List Token → α → Prop} (hG : ∀ ts a, ¬G ts a) :
    Follows (throw e) G := by
  intro s a rest
  simp [hG, throw_apply]

theorem Follows.bind {H : α → List Token → β → Prop} (hm : Follows m G)
    (hf : ∀ a, Follows (f a) (H a)) :
    Follows (m >>= f) fun ts b => ∃ us a vs, ts = us ++ vs ∧ G us a ∧ H a vs b := by
  intro s b rest
  rw [exists_bind_eq_ok_iff]
  constructor
  · rintro ⟨a, ⟨current, rest'⟩, hma, hfa⟩
    obtain ⟨us, hs, hus⟩ := (hm s a rest').mp ⟨current, hma⟩
    obtain ⟨vs, hrest, hvs⟩ := (hf a _ b rest).mp hfa
    dsimp only at hrest
    exact ⟨us ++ vs, by rw [hs, hrest, List.append_assoc], us, a, vs, rfl, hus, hvs⟩
  · rintro ⟨ts, hs, us, a, vs, rfl, hus, hvs⟩
    rw [List.append_assoc] at hs
    obtain ⟨current, hma⟩ := (hm s a (vs ++ rest)).mpr ⟨us, hs, hus⟩
    exact ⟨a, _, hma, (hf a _ b rest).mpr ⟨vs, rfl, hvs⟩⟩

/-- What is made of the result takes no tokens. -/
theorem Follows.bind_pure {g : α → β} (hm : Follows m G) :
    Follows (m >>= fun a => pure (g a)) fun ts b => ∃ a, G ts a ∧ b = g a := by
  refine (hm.bind fun a => follows_pure (g a)).congr fun ts b => ?_
  constructor
  · rintro ⟨a, ha, hb⟩
    exact ⟨ts, a, [], (List.append_nil ts).symm, ha, rfl, hb⟩
  · rintro ⟨us, a, vs, rfl, ha, rfl, hb⟩
    exact ⟨a, by rwa [List.append_nil], hb⟩

theorem Follows.bind_exhausts {H : α → List Token → β → Prop} (hm : Follows m G)
    (hf : ∀ a, Exhausts (f a) (H a)) :
    Exhausts (m >>= f) fun ts b => ∃ us a vs, ts = us ++ vs ∧ G us a ∧ H a vs b := by
  intro s b rest
  rw [exists_bind_eq_ok_iff]
  constructor
  · rintro ⟨a, ⟨current, rest'⟩, hma, hfa⟩
    obtain ⟨us, hs, hus⟩ := (hm s a rest').mp ⟨current, hma⟩
    obtain ⟨hrest, hvs⟩ := (hf a _ b rest).mp hfa
    exact ⟨hrest, us, a, rest', hs, hus, hvs⟩
  · rintro ⟨hrest, us, a, vs, hs, hus, hvs⟩
    obtain ⟨current, hma⟩ := (hm s a vs).mpr ⟨us, hs, hus⟩
    exact ⟨a, _, hma, (hf a _ b rest).mpr ⟨hrest, hvs⟩⟩

theorem Exhausts.bind {P : α → β → Prop} (hm : Exhausts m G)
    (hf : ∀ a, Follows (f a) fun ts b => ts = [] ∧ P a b) :
    Exhausts (m >>= f) fun ts b => ∃ a, G ts a ∧ P a b := by
  intro s b rest
  rw [exists_bind_eq_ok_iff]
  constructor
  · rintro ⟨a, ⟨current, rest'⟩, hma, hfa⟩
    obtain ⟨rfl, ha⟩ := (hm s a rest').mp ⟨current, hma⟩
    obtain ⟨ts, hts, rfl, hb⟩ := (hf a _ b rest).mp hfa
    exact ⟨hts.symm, a, ha, hb⟩
  · rintro ⟨rfl, a, ha, hb⟩
    obtain ⟨current, hma⟩ := (hm s a []).mpr ⟨rfl, ha⟩
    exact ⟨a, _, hma, (hf a _ b []).mpr ⟨[], rfl, rfl, hb⟩⟩

theorem Exhausts.congr {H : List Token → α → Prop} (h : Exhausts m G)
    (hG : ∀ ts a, H ts a ↔ G ts a) : Exhausts m H := by
  intro s a rest
  simp only [h s a rest, hG]

theorem exhausts_throw (e : Failure) {G : List Token → α → Prop} (hG : ∀ ts a, ¬G ts a) :
    Exhausts (throw e) G := by
  intro s a rest
  simp [hG, throw_apply]

end

theorem follows_expect (kind : TokenKind) (what : String) :
    Follows (expect kind what) fun ts text => ts = [⟨kind, text⟩] := by
  rintro ⟨current, tokens⟩ text rest
  cases tokens with
  | nil => simp [expect]
  | cons t ts =>
    obtain ⟨kind', text'⟩ := t
    by_cases hk : kind' = kind
    · simp [expect, hk, and_comm]
    · simp [expect, hk]

theorem follows_expectNumber : Follows expectNumber SpellsNumber := by
  rintro ⟨current, tokens⟩ n rest
  unfold expectNumber
  constructor
  · rintro ⟨current', h⟩
    dsimp only at h
    split at h
    · cases h
    · next t ts =>
      split_ifs at h with hk
      split at h
      · next hn =>
        cases h
        exact ⟨[t], rfl, t.text, by rw [← hk], hn⟩
      · cases h
  · rintro ⟨us, hs, text, rfl, hn⟩
    refine ⟨some ⟨.number, text⟩, ?_⟩
    rw [hs]
    simp [hn]

theorem follows_expectVec : Follows expectVec SpellsVec := by
  refine (follows_expectNumber.bind fun x => follows_expectNumber.bind_pure).congr fun ts v => ?_
  constructor
  · rintro ⟨us, vs, hts, hx, hy⟩
    exact ⟨us, v.x, vs, hts, hx, v.y, hy, rfl⟩
  · rintro ⟨us, x, vs, hts, hx, y, hy, rfl⟩
    exact ⟨us, vs, hts, hx, hy⟩

theorem follows_expectLabel : Follows expectLabel SpellsLabel := by
  refine (follows_expect .identifier "label").bind_pure.congr fun ts l => ?_
  rw [labelOf_eq_unticked]
  exact Iff.rfl

theorem follows_labels : Follows labels SpellsLabels := by
  rintro ⟨current, tokens⟩ ls rest
  unfold labels
  dsimp only
  induction tokens generalizing current ls with
  | nil =>
    constructor
    · rintro ⟨current', h⟩
      cases h
    · rintro ⟨us, hs, hus⟩
      rw [(List.append_eq_nil_iff.mp hs.symm).1] at hus
      exact absurd hus (not_spellsLabels_nil ls)
  | cons t ts ih =>
    obtain ⟨kind, text⟩ := t
    constructor
    · rintro ⟨current', h⟩
      rw [labelsBefore, labelOf_eq_unticked] at h
      dsimp only at h
      split_ifs at h with he hi
      · cases h
        exact ⟨[⟨kind, text⟩], rfl, spellsLabels_cons_iff.mpr (.inl ⟨he, rfl, rfl⟩)⟩
      · split at h
        · next ms s' hr =>
          cases h
          obtain ⟨us, hus, hms⟩ := (ih _ _).mp ⟨_, hr⟩
          refine ⟨⟨kind, text⟩ :: us, by rw [hus, List.cons_append], ?_⟩
          exact spellsLabels_cons_iff.mpr (.inr ⟨hi, ms, hms, rfl⟩)
        · cases h
    · rintro ⟨us, hs, hus⟩
      cases us with
      | nil => exact absurd hus (not_spellsLabels_nil ls)
      | cons u us =>
        rw [List.cons_append] at hs
        obtain ⟨rfl, rfl⟩ := List.cons.inj hs
        rw [labelsBefore, labelOf_eq_unticked]
        rcases spellsLabels_cons_iff.mp hus with ⟨rfl, rfl, rfl⟩ | ⟨rfl, ms, hms, rfl⟩
        · exact ⟨_, rfl⟩
        · obtain ⟨current', h⟩ := (ih (some ⟨.identifier, text⟩) ms).mpr ⟨us, rfl, hms⟩
          refine ⟨current', ?_⟩
          simp [h]

/-- The name is told apart first, and what it calls for is read behind it. -/
theorem Follows.behind {α : Type} {what : String} {f : String → Reader α} {G : List Token → α → Prop}
    (hf : ∀ name, Follows (f name) fun ts a => G (.word name :: ts) a)
    (hG : ∀ ts a, G ts a → ∃ name us, ts = .word name :: us) :
    Follows (expect .keyword what >>= f) G := by
  refine ((follows_expect .keyword what).bind hf).congr fun ts a => ?_
  constructor
  · intro h
    obtain ⟨name, us, rfl⟩ := hG ts a h
    exact ⟨[.word name], name, us, rfl, rfl, h⟩
  · rintro ⟨_, name, us, rfl, rfl, h⟩
    exact h

theorem follows_value : Follows value SpellsValue := by
  refine Follows.behind (fun name => ?_) ?_
  · split_ifs with hgnd hvcc hand hor
    · exact (follows_pure _).congr fun ts v => by simp [spellsValue_word_iff, hgnd]
    · exact (follows_pure _).congr fun ts v => by simp [spellsValue_word_iff, hvcc]
    · exact follows_labels.bind_pure.congr fun ts v => by simp [spellsValue_word_iff, hand]
    · exact follows_labels.bind_pure.congr fun ts v => by simp [spellsValue_word_iff, hor]
    · exact follows_throw _ fun ts v => by simp [spellsValue_word_iff, hgnd, hvcc, hand, hor]
  · rintro ts ⟨content, ls⟩ h
    rcases content with _ | _ | _ | g
    · cases h
    · exact ⟨_, [], h.1⟩
    · exact ⟨_, [], h.1⟩
    · obtain ⟨us, hts, -⟩ := h
      exact ⟨_, us, hts⟩

theorem follows_color : Follows color fun ts c => ts = [.word c.name] := by
  refine Follows.behind (fun name => ?_) fun ts c hts => ⟨c.name, [], hts⟩
  split
  · next c hc =>
    rw [Color.ofName?_eq_some_iff] at hc
    subst hc
    refine (follows_pure c).congr fun ts d => ?_
    have hname : c.name = d.name ↔ d = c := by
      rw [← Color.ofName?_eq_some_iff, Color.ofName?_eq_some_iff.mpr rfl, Option.some.injEq, eq_comm]
    simp [Token.word, hname, and_comm]
  · next hc =>
    refine follows_throw _ fun ts d hts => ?_
    have hname : name = d.name := by
      simpa [Token.word] using (List.cons.inj hts).1
    rw [Color.ofName?_eq_some_iff.mpr hname] at hc
    cases hc

theorem follows_arguments (n : AttributeName) :
    Follows (arguments n) fun ts a => a.name = n ∧ SpellsArguments ts a := by
  cases n with
  | bounds | position | start | stop =>
    refine follows_expectVec.bind_pure.congr fun ts a => ?_
    cases a <;> simp [Attribute.name, SpellsArguments]
  | row | number =>
    refine follows_expectNumber.bind_pure.congr fun ts a => ?_
    cases a <;> simp [Attribute.name, SpellsArguments]
  | type =>
    refine (follows_expect .keyword "type").bind_pure.congr fun ts a => ?_
    cases a <;> simp [Attribute.name, SpellsArguments, Token.word]
  | color =>
    refine follows_color.bind_pure.congr fun ts a => ?_
    cases a <;> simp [Attribute.name, SpellsArguments]
  | label =>
    refine follows_expectLabel.bind_pure.congr fun ts a => ?_
    cases a <;> simp [Attribute.name, SpellsArguments]
  | value =>
    refine follows_value.bind_pure.congr fun ts a => ?_
    cases a <;> simp [Attribute.name, SpellsArguments]

theorem follows_attributeGroup : Follows attributeGroup SpellsAttribute := by
  refine Follows.behind (fun name => ?_) ?_
  · split
    · next n hn =>
      rw [AttributeName.ofText?_eq_some_iff] at hn
      subst hn
      refine (follows_arguments n).congr fun ts a => ?_
      have hname : n.text = a.name.text ↔ a.name = n := by
        rw [← AttributeName.ofText?_eq_some_iff, AttributeName.ofText?_eq_some_iff.mpr rfl,
          Option.some.injEq, eq_comm]
      simp [SpellsAttribute, Token.word, hname, and_assoc]
    · next hn =>
      refine follows_throw _ fun ts a => ?_
      rintro ⟨us, hts, -⟩
      have hname : name = a.name.text := by
        simpa [Token.word] using (List.cons.inj hts).1
      rw [AttributeName.ofText?_eq_some_iff.mpr hname] at hn
      cases hn
  · rintro ts a ⟨us, hts, -⟩
    exact ⟨_, us, hts⟩

/-- Behind a first attribute that the component has, the others are read in the same way. -/
theorem attributes_eq_ok_iff {c c' : Component} {s : Cursor} {rest : List Token} (hs : s.rest ≠ []) :
    (∃ current, attributes c s = .ok c' ⟨current, rest⟩) ↔
      ∃ a s₁, attributeGroup s = .ok a s₁ ∧ ∃ c₁, a.apply c = .ok () c₁ ∧
        ∃ current, attributes c₁ s₁ = .ok c' ⟨current, rest⟩ := by
  rw [attributes]
  split
  · next h => exact absurd h hs
  · split
    · next h => simp [h]
    · next a s₁ h =>
      rw [h]
      split
      · next happly =>
        constructor
        · rintro ⟨_, ⟨⟩⟩
        · rintro ⟨_, _, ⟨⟩, c₁, happly', -⟩
          rw [happly] at happly'
          cases happly'
      · next c₁ happly =>
        constructor
        · intro hrest
          exact ⟨a, s₁, rfl, c₁, happly, hrest⟩
        · rintro ⟨_, _, ⟨⟩, c₂, happly', hrest⟩
          rw [happly] at happly'
          cases happly'
          exact hrest

theorem exhausts_attributes {c : Component} {k : Kind} (hk : c.kind? = some k) :
    Exhausts (attributes c) fun ts c' => ∃ as, SpellsAttributes ts as ∧
      (∀ a ∈ as, a.name ∈ k.attributes) ∧ c' = as.foldl Component.set c := by
  intro s c' rest
  induction hn : s.rest.length using Nat.strongRecOn generalizing c s with
  | ind n ih =>
    by_cases hs : s.rest = []
    · have hdone : attributes c s = .ok c s := by
        rw [attributes]
        split
        · rfl
        · next h => simp [hs] at h
      rw [hdone, hs]
      constructor
      · rintro ⟨current, ⟨⟩⟩
        exact ⟨hs, [], .nil, by simp, rfl⟩
      · rintro ⟨rfl, as, has, -, rfl⟩
        -- No group is empty, so that there is none.
        generalize hts : ([] : List Token) = ts at has
        cases has with
        | nil => exact ⟨s.current, by rw [← hs]; rfl⟩
        | cons ha _ =>
          exact absurd (List.append_eq_nil_iff.mp hts.symm).1 (ne_nil_of_spellsAttribute ha)
    · rw [attributes_eq_ok_iff hs]
      constructor
      · rintro ⟨a, s₁, hgroup, c₁, happly, hrest⟩
        obtain ⟨ts, hts, ha⟩ := (follows_attributeGroup s a s₁.rest).mp ⟨_, hgroup⟩
        obtain ⟨hname, rfl⟩ := (Attribute.apply_eq_ok_iff hk).mp happly
        have hk₁ : (c.set a).kind? = some k := by rw [Component.kind?_set, hk]
        have hlt := takes_attributeGroup s a s₁ hgroup
        obtain ⟨hnil, as, has, hnames, hc'⟩ := (ih _ (hn ▸ hlt) hk₁ s₁ rfl).mp hrest
        refine ⟨hnil, a :: as, ?_, List.forall_mem_cons.mpr ⟨hname, hnames⟩, hc'⟩
        rw [hts]
        exact .cons ha has
      · rintro ⟨rfl, as, has, hnames, rfl⟩
        generalize hts : s.rest = ts at has
        cases has with
        | nil => exact absurd hts hs
        | @cons ts us a as ha has =>
          obtain ⟨hname, hnames⟩ := List.forall_mem_cons.mp hnames
          obtain ⟨current, hgroup⟩ := (follows_attributeGroup s a us).mpr ⟨ts, hts, ha⟩
          have hk₁ : (c.set a).kind? = some k := by rw [Component.kind?_set, hk]
          have hlt := takes_attributeGroup s a _ hgroup
          refine ⟨a, _, hgroup, c.set a, (Attribute.apply_eq_ok_iff hk).mpr ⟨hname, rfl⟩, ?_⟩
          exact (ih _ (hn ▸ hlt) hk₁ _ rfl).mpr ⟨rfl, as, has, hnames, rfl⟩

/-- A component is complete before it is given. -/
theorem follows_verify (c : Component) :
    Follows (match c.verify with
      | .error e => throw e
      | .ok () => pure (some c)) fun ts c? => ts = [] ∧ c.verify = .ok () ∧ c? = some c := by
  split
  · next h => exact follows_throw _ fun ts c? => by simp [h]
  · next h => exact (follows_pure _).congr fun ts c? => by simp [h]

/-- What follows the name of a kind are attributes of that kind. -/
theorem exhausts_kind (name : String) :
    Exhausts (match Kind.ofName? name with
      | none => throw (Cause.unknownKind name : Failure)
      | some k => do
        let c ← attributes (.ofKind k)
        match c.verify with
        | .error e => throw e
        | .ok () => pure (some c)) fun ts c? => ∃ c, (∃ k as, name = k.name ∧ SpellsAttributes ts as ∧
          (∀ a ∈ as, a.name ∈ k.attributes) ∧ c = as.foldl Component.set (.ofKind k) ∧
          c.verify = .ok ()) ∧ c? = some c := by
  split
  · next hnone =>
    refine exhausts_throw _ ?_
    rintro ts c? ⟨c, ⟨k, as, hname, -⟩, -⟩
    rw [Kind.ofName?_eq_some_iff.mpr hname] at hnone
    cases hnone
  · next k hsome =>
    have hattributes := exhausts_attributes (Component.kind?_ofKind k)
    refine (hattributes.bind follows_verify).congr fun ts c? => ?_
    constructor
    · rintro ⟨c, ⟨k', as, hname, has, hnames, hc, hverify⟩, hsame⟩
      rw [Kind.ofName?_eq_some_iff.mpr hname] at hsome
      cases hsome
      exact ⟨c, ⟨as, has, hnames, hc⟩, hverify, hsame⟩
    · rintro ⟨c, ⟨as, has, hnames, hc⟩, hverify, hsame⟩
      exact ⟨c, ⟨k, as, Kind.ofName?_eq_some_iff.mp hsome, has, hnames, hc, hverify⟩, hsame⟩

theorem exhausts_declaration :
    Exhausts component.declaration fun ts c? => ∃ c, Declares ts c ∧ c? = some c := by
  have hcolon := follows_expect .separator "':'"
  have hname := follows_expect .keyword "object type"
  refine (hcolon.bind_exhausts fun _ => hname.bind_exhausts exhausts_kind).congr fun ts c? => ?_
  simp only [declares_iff_foldl_set]
  constructor
  · rintro ⟨c, ⟨colon, k, us, as, rfl, hc⟩, hsame⟩
    exact ⟨[_], colon, _, rfl, rfl, [_], k.name, us, rfl, rfl, c, ⟨k, as, rfl, hc⟩, hsame⟩
  · rintro ⟨_, colon, _, rfl, rfl, _, _, us, rfl, rfl, c, ⟨k, as, rfl, hc⟩, hsame⟩
    exact ⟨c, ⟨colon, k, us, as, rfl, hc⟩, hsame⟩

end Reader

/-- A line without tokens is blank, and any other line has to declare a component. -/
theorem Reader.exhausts_component : Exhausts component fun ts c? =>
    (ts = [] ∧ c? = none) ∨ ∃ c, Declares ts c ∧ c? = some c := by
  intro s c? rest
  by_cases hs : s.rest = []
  · have hblank : component s = .ok none s := by
      unfold component
      rw [hs]
    rw [hblank, hs]
    constructor
    · rintro ⟨current, ⟨⟩⟩
      exact ⟨hs, .inl ⟨rfl, rfl⟩⟩
    · rintro ⟨rfl, ⟨-, rfl⟩ | ⟨c, hc, -⟩⟩
      · exact ⟨s.current, by rw [← hs]⟩
      · exact absurd hc (not_declares_nil c)
  · have hdeclaration : component s = component.declaration s := by
      unfold component
      split
      · next h => exact absurd h hs
      · rfl
    rw [hdeclaration, exhausts_declaration s c? rest]
    simp [hs]

theorem component_ofTokens_eq_ok_iff {ts : List Token} {c? : Option Component} :
    (∃ s, Reader.component (.ofTokens ts) = .ok c? s) ↔
      (ts = [] ∧ c? = none) ∨ ∃ c, Declares ts c ∧ c? = some c := by
  have hread := Reader.exhausts_component (.ofTokens ts) c?
  constructor
  · rintro ⟨⟨current, rest⟩, h⟩
    exact ((hread rest).mp ⟨current, h⟩).2
  · intro h
    obtain ⟨current, hc⟩ := (hread []).mpr ⟨rfl, h⟩
    exact ⟨_, hc⟩

/-- Of all token lists, none at all is a blank line, those that declare a component are read as it and to
the end, and any other is answered with a diagnostic. What is read has passed the check of its kind. -/
theorem read_iff_declares (ts : List Token) :
    ((∃ s, Reader.component (.ofTokens ts) = .ok none s) ↔ ts = []) ∧
    (∀ c, (∃ s, Reader.component (.ofTokens ts) = .ok (some c) s) ↔ Declares ts c) ∧
    (∀ c?, (∃ s, Reader.component (.ofTokens ts) = .ok c? s) ↔
      ∃ current, Reader.component (.ofTokens ts) = .ok c? ⟨current, []⟩) ∧
    ((∃ d s, Reader.component (.ofTokens ts) = .error (.diagnostic d) s) ↔
      ts ≠ [] ∧ ∀ c, ¬Declares ts c) ∧
    ∀ c : Component, c.verify = .ok () ↔ c.Complete := by
  refine ⟨?_, ?_, ?_, ?_, Component.verify_eq_ok_iff⟩
  · simp [component_ofTokens_eq_ok_iff]
  · simp [component_ofTokens_eq_ok_iff]
  · intro c?
    have hread := Reader.exhausts_component (.ofTokens ts) c? []
    rw [hread, component_ofTokens_eq_ok_iff]
    exact (and_iff_right rfl).symm
  · have hnone := @component_ofTokens_eq_ok_iff ts none
    have hsome : ∀ c, _ ↔ _ := fun c => @component_ofTokens_eq_ok_iff ts (some c)
    simp only [and_true, reduceCtorEq, and_false, exists_false, or_false] at hnone
    simp only [reduceCtorEq, and_false, Option.some.injEq, false_or, exists_eq_right'] at hsome
    rw [Ne, ← hnone]
    simp only [← hsome]
    cases h : Reader.component (.ofTokens ts) with
    | ok c? s => cases c? <;> simp
    | error e s =>
      cases e with
      | diagnostic d => simp
      | fault f => exact absurd h (Reader.diagnoses_component _ f s)

/-- A pin that is labeled twice and has its value before its number. -/
def pinTokens : List Token := [⟨.separator, ":"⟩, .word "pin", .word "label", ⟨.identifier, "'a"⟩, .word "value",
  .word "and", ⟨.identifier, "'a"⟩, ⟨.identifier, "'b_1"⟩, ⟨.ender, "."⟩, .word "num", ⟨.number, "07"⟩,
  .word "label", ⟨.identifier, "'y"⟩]

def chipTokens : List Token := [⟨.separator, ":"⟩, .word "chip", .word "pos", ⟨.number, "3"⟩, ⟨.number, "12"⟩,
  .word "type", .word "gates/buf"]

theorem read_iff_declares_chip :
    Declares pinTokens (.pin ⟨"y", ⟨.gate .and, ["a", "b_1"]⟩, .floating, ⟨⟨0, 0⟩, ⟨1, 1⟩⟩, some 7, none⟩) ∧
    Declares chipTokens (.chip ⟨"gates/buf", ⟨⟨3, 12⟩, ⟨0, 3⟩⟩, none⟩) ∧
    (∃ d s, Reader.component (.ofTokens (chipTokens.take 5)) = .error (.diagnostic d) s) ∧
    ∀ c, ¬Declares (chipTokens.take 5) c := by
  have hpin := (read_iff_declares pinTokens).2.1
    (.pin ⟨"y", ⟨.gate .and, ["a", "b_1"]⟩, .floating, ⟨⟨0, 0⟩, ⟨1, 1⟩⟩, some 7, none⟩)
  have hchip := (read_iff_declares chipTokens).2.1 (.chip ⟨"gates/buf", ⟨⟨3, 12⟩, ⟨0, 3⟩⟩, none⟩)
  have huntyped : ∃ d s, Reader.component (.ofTokens (chipTokens.take 5)) = .error (.diagnostic d) s :=
    ⟨⟨.missingAttribute "type", none⟩, ⟨some ⟨.number, "12"⟩, []⟩, by decide +kernel⟩
  refine ⟨hpin.mp ⟨⟨some ⟨.identifier, "'y"⟩, []⟩, by decide +kernel⟩,
    hchip.mp ⟨⟨some (.word "gates/buf"), []⟩, by decide +kernel⟩, huntyped, ?_⟩
  exact ((read_iff_declares (chipTokens.take 5)).2.2.2.1.mp huntyped).2

end Schematic.Source
