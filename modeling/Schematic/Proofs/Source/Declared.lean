import Schematic.Proofs.Source.Words
import Schematic.Source.Document

/-! What lines declare. A component starts with the defaults of its kind, and each attribute that is read
keeps it within what a line can write. Main statement: all components of a text are declared ones. -/
namespace Schematic
open Schematic.Source

/-- A label as a line writes it. -/
def IsLabel (s : String) : Prop := s ≠ "" ∧ ∀ c ∈ s.toList, isLabelChar c

/-- A chip or net type as a line writes it. -/
def IsTypeName (s : String) : Prop := TokenKind.keyword.Matches s.toList

def InRange (n : Int) : Prop := 0 ≤ n ∧ n ≤ maxCoordinate

def Vec.InRange (v : Vec) : Prop := Schematic.InRange v.x ∧ Schematic.InRange v.y

/-- Only a gate has labels. -/
def Value.Written (v : Value) : Prop :=
  (∀ l ∈ v.labels, IsLabel l) ∧ (v.isLogic = false → v.labels = [])

def Attribute.Written : Attribute → Prop
  | bounds v | start v | stop v | position v => v.InRange
  | color _ => True
  | label s => IsLabel s
  | number n | row n => InRange n
  | type s => IsTypeName s
  | value v => v.Written

/-- A pin, its place apart, before its value is looked at. -/
structure Pin.Drafted (p : Pin) : Prop where
  label : p.label = "" ∨ IsLabel p.label
  value : p.value.Written
  voltage : p.voltage = .floating
  number : ∀ n ∈ p.number, InRange n

/-- What the attributes of a line can make of a component. -/
def Component.Drafted : Component → Prop
  | .canvas c => c.bounds.InRange
  | .chip c => (c.type = "" ∨ IsTypeName c.type) ∧ c.region.position.InRange ∧
      c.region.size = ⟨0, chipHeight⟩
  | .net n => (n.type = "" ∨ IsTypeName n.type) ∧ n.region.position.x = 0 ∧
      InRange n.region.position.y ∧ n.region.size = ⟨0, 1⟩
  | .pin p => p.Drafted ∧ p.region.position.InRange ∧ p.region.size = ⟨1, 1⟩
  | .wire w => w.start.InRange ∧ w.stop.InRange ∧ w.label = ""
  | .foreign _ => False

/-- What a line can declare. -/
def Component.Declared (c : Component) : Prop := c.Drafted ∧ c.verify = .ok ()

theorem Component.drafted_ofKind (k : Kind) : (Component.ofKind k).Drafted := by
  have hzero : InRange 0 := ⟨Int.le_refl 0, Int.natCast_nonneg _⟩
  cases k with
  | chip => exact ⟨.inl rfl, ⟨hzero, hzero⟩, rfl⟩
  | canvas => exact ⟨hzero, hzero⟩
  | net => exact ⟨.inl rfl, rfl, hzero, rfl⟩
  | pin => exact ⟨⟨.inl rfl, ⟨by simp, fun _ => rfl⟩, rfl, by simp⟩, ⟨hzero, hzero⟩, rfl⟩
  | wire => exact ⟨⟨hzero, hzero⟩, ⟨hzero, hzero⟩, rfl⟩

theorem Attribute.drafted_of_set? {a : Attribute} {c c' : Component} (ha : a.Written)
    (hc : c.Drafted) (h : a.set? c = some c') : c'.Drafted := by
  cases c with
  | canvas c =>
    cases a <;> cases h
    exact ha
  | chip c =>
    obtain ⟨ht, hp, hs⟩ := hc
    cases a <;> cases h
    · exact ⟨ht, ha, hs⟩
    · exact ⟨.inr ha, hp, hs⟩
  | net n =>
    obtain ⟨ht, hx, hy, hs⟩ := hc
    cases a <;> cases h
    · exact ⟨.inr ha, hx, hy, hs⟩
    · exact ⟨ht, rfl, ha, hs⟩
  | pin p =>
    obtain ⟨⟨hl, hv, hf, hn⟩, hp, hs⟩ := hc
    cases a <;> cases h
    · exact ⟨⟨.inr ha, hv, hf, hn⟩, hp, hs⟩
    · exact ⟨⟨hl, hv, hf, by rintro n ⟨⟩; exact ha⟩, hp, hs⟩
    · exact ⟨⟨hl, hv, hf, hn⟩, ha, hs⟩
    · exact ⟨⟨hl, ha, hf, hn⟩, hp, hs⟩
  | wire w =>
    obtain ⟨hs, ht, hl⟩ := hc
    cases a <;> cases h
    · exact ⟨hs, ht, hl⟩
    · exact ⟨ha, ht, hl⟩
    · exact ⟨hs, ha, hl⟩
  | foreign text => cases hc

theorem Attribute.drafted_of_apply {a : Attribute} {c c' : Component} (ha : a.Written)
    (hc : c.Drafted) (h : a.apply c = .ok () c') : c'.Drafted :=
  drafted_of_set? ha hc (apply_eq_ok_iff_set?.mp h)

namespace Source.Reader

/-- On tokens as lines have them, what the reader gives has the property. -/
def Gives {α : Type} (P : α → Prop) (m : Reader α) : Prop :=
  ∀ s a s', (∀ t ∈ s.rest, t.Matches) → m s = .ok a s' → P a ∧ ∀ t ∈ s'.rest, t.Matches

section

variable {α β : Type} {P : α → Prop} {Q : β → Prop}

theorem gives_pure {a : α} (h : P a) : Gives P (pure a) := by
  intro s b s' hs hm
  cases hm
  exact ⟨h, hs⟩

theorem gives_throw (e : Failure) : Gives P (throw e) := by
  intro s b s' hs hm
  cases hm

theorem Gives.bind {m : Reader α} {f : α → Reader β} (hm : Gives P m)
    (hf : ∀ a, P a → Gives Q (f a)) : Gives Q (m >>= f) := by
  intro s b s'' hs h
  obtain ⟨a, s', h₁, h₂⟩ := bind_eq_ok h
  obtain ⟨ha, hs'⟩ := hm s a s' hs h₁
  exact hf a ha s' b s'' hs' h₂

end

theorem gives_expect (kind : TokenKind) (what : String) :
    Gives (fun text => kind.Matches text.toList) (expect kind what) := by
  intro s a s' hs h
  unfold expect at h
  split at h
  · cases h
  · next t ts hr =>
    rw [hr] at hs
    obtain ⟨ht, hts⟩ := List.forall_mem_cons.mp hs
    split_ifs at h with hk
    cases h
    subst hk
    exact ⟨ht, hts⟩

theorem gives_expectNumber : Gives InRange expectNumber := by
  intro s a s' hs h
  unfold expectNumber at h
  split at h
  · cases h
  · next t ts hr =>
    rw [hr] at hs
    obtain ⟨ht, hts⟩ := List.forall_mem_cons.mp hs
    split_ifs at h with hk
    split at h
    · next hn =>
      cases h
      exact ⟨number_bounds hn, hts⟩
    · cases h

theorem gives_expectVec : Gives Vec.InRange expectVec :=
  gives_expectNumber.bind fun _ hx => gives_expectNumber.bind fun _ hy => gives_pure ⟨hx, hy⟩

theorem isLabel_labelOf {text : String} (h : TokenKind.identifier.Matches text.toList) :
    IsLabel (labelOf text) := by
  obtain ⟨body, hb, hn, hc⟩ := h
  unfold labelOf IsLabel
  rw [hb, List.tail_cons, String.toList_ofList]
  refine ⟨?_, hc⟩
  intro he
  have hl := congrArg String.toList he
  rw [String.toList_ofList] at hl
  exact hn hl

theorem gives_expectLabel : Gives IsLabel expectLabel :=
  (gives_expect _ _).bind fun _ h => gives_pure (isLabel_labelOf h)

theorem gives_labels : Gives (fun ls => ∀ l ∈ ls, IsLabel l) labels := by
  rintro ⟨current, rest⟩ ls s' hs h
  unfold labels at h
  dsimp only at hs h
  induction rest generalizing current ls with
  | nil => cases h
  | cons t ts ih =>
    obtain ⟨ht, hts⟩ := List.forall_mem_cons.mp hs
    rw [labelsBefore] at h
    split_ifs at h with he hi
    · cases h
      exact ⟨by simp, hts⟩
    · split at h
      · next hr =>
        cases h
        obtain ⟨hls, hs'⟩ := ih _ _ hts hr
        rw [Token.Matches, hi] at ht
        exact ⟨List.forall_mem_cons.mpr ⟨isLabel_labelOf ht, hls⟩, hs'⟩
      · cases h

theorem gives_value : Gives Value.Written value := by
  refine (gives_expect _ _).bind fun name _ => ?_
  split_ifs
  · exact gives_pure ⟨by simp, fun _ => rfl⟩
  · exact gives_pure ⟨by simp, fun _ => rfl⟩
  · exact gives_labels.bind fun ls hls => gives_pure ⟨hls, by simp [Value.isLogic, Content.gate?]⟩
  · exact gives_labels.bind fun ls hls => gives_pure ⟨hls, by simp [Value.isLogic, Content.gate?]⟩
  · exact gives_throw _

theorem gives_color : Gives (fun _ => True) color := by
  refine (gives_expect _ _).bind fun name _ => ?_
  split
  · exact gives_pure trivial
  · exact gives_throw _

theorem gives_arguments (a : AttributeName) : Gives Attribute.Written (arguments a) := by
  cases a with
  | bounds | position | start | stop => exact gives_expectVec.bind fun _ h => gives_pure h
  | row | number => exact gives_expectNumber.bind fun _ h => gives_pure h
  | type => exact (gives_expect _ _).bind fun _ h => gives_pure h
  | color => exact gives_color.bind fun _ h => gives_pure h
  | label => exact gives_expectLabel.bind fun _ h => gives_pure h
  | value => exact gives_value.bind fun _ h => gives_pure h

theorem gives_attributeGroup : Gives Attribute.Written attributeGroup := by
  refine (gives_expect _ _).bind fun name _ => ?_
  split
  · exact gives_arguments _
  · exact gives_throw _

theorem gives_attributes {c : Component} (hc : c.Drafted) :
    Gives Component.Drafted (attributes c) := by
  intro s a s' hs h
  induction hn : s.rest.length using Nat.strongRecOn generalizing c s with
  | ind n ih =>
    rw [attributes] at h
    split at h
    · cases h
      exact ⟨hc, hs⟩
    · split at h
      · cases h
      · next a₁ s₁ hg =>
        obtain ⟨ha₁, hs₁⟩ := gives_attributeGroup s a₁ s₁ hs hg
        split at h
        · cases h
        · next c₁ hap =>
          have hlt := takes_attributeGroup s a₁ s₁ hg
          exact ih _ (hn ▸ hlt) (Attribute.drafted_of_apply ha₁ hc hap) s₁ hs₁ h rfl

theorem gives_declaration :
    Gives (fun c? : Option Component => ∀ c ∈ c?, c.Declared) component.declaration := by
  refine (gives_expect _ _).bind fun _ _ => (gives_expect _ _).bind fun name _ => ?_
  split
  · exact gives_throw _
  · next k _ =>
    refine (gives_attributes (Component.drafted_ofKind k)).bind fun c hc => ?_
    split
    · exact gives_throw _
    · next hv =>
      refine gives_pure ?_
      rintro c' ⟨⟩
      exact ⟨hc, hv⟩

theorem gives_component :
    Gives (fun c? : Option Component => ∀ c ∈ c?, c.Declared) component := by
  intro s a s' hs h
  unfold component at h
  split at h
  · cases h
    exact ⟨by simp, hs⟩
  · exact gives_declaration s a s' hs h

end Source.Reader

theorem Component.Declared.withOrigin {c : Component} (h : c.Declared) (o : Origin) :
    (c.withOrigin o).Declared := by
  cases c with
  | pin p =>
    obtain ⟨⟨⟨hl, hv, hf, hn⟩, hr⟩, hverify⟩ := h
    exact ⟨⟨⟨hl, hv, hf, hn⟩, hr⟩, hverify⟩
  | canvas | chip | net | wire | foreign => exact h

namespace Source

theorem declared_of_readLine {line : String} {c : Component} (h : readLine line = .ok (some c)) :
    c.Declared := by
  unfold readLine at h
  split at h
  · cases h
  · next ts hts =>
    split at h
    · cases h
    · next c? s hc =>
      cases h
      exact (Reader.gives_component _ _ _ (matches_of_tokens hts) hc).1 c rfl

theorem declared_of_readLines {path : Option String} {n : Int} {lines : List String}
    {cs : List Component} (h : readLines path n lines = .ok cs) : ∀ c ∈ cs, c.Declared := by
  induction lines generalizing n cs with
  | nil =>
    cases h
    simp
  | cons line lines ih =>
    rw [readLines] at h
    split at h
    · cases h
    · exact ih h
    · next hline =>
      split at h
      · cases h
      · next hrest =>
        cases h
        exact List.forall_mem_cons.mpr ⟨(declared_of_readLine hline).withOrigin _, ih hrest⟩

theorem declared_of_readText {path : Option String} {text : String} {cs : List Component}
    (h : readText path text = .ok cs) : ∀ c ∈ cs, c.Declared := declared_of_readLines h

theorem declared_of_readProject {files : Files.Tree} {path : Files.Path} {cs : List Component}
    (h : readProject files path = .ok cs) : ∀ c ∈ cs, c.Declared := by
  unfold readProject at h
  split_ifs at h
  split at h
  · cases h
  · cases h
  · exact declared_of_readText h

theorem declared_of_read {files : Files.Tree} {input : Input} {cs : List Component}
    (h : input.read files = .ok cs) : ∀ c ∈ cs, c.Declared := by
  cases input with
  | text s => exact declared_of_readText h
  | file path => exact declared_of_readProject h

theorem origin?_withOrigin {c : Component} (h : c.Declared) (o : Origin) :
    (c.withOrigin o).origin? = some o := by
  obtain ⟨hd, -⟩ := h
  cases c with
  | foreign text => cases hd
  | canvas | chip | net | pin | wire => rfl

/-- Components come from the lines that they stand on, one from each at most. -/
theorem origins_of_readLines {path : Option String} {n : Int} {lines : List String}
    {cs : List Component} (h : readLines path n lines = .ok cs) :
    (∀ c ∈ cs, ∃ m, n ≤ m ∧ c.origin? = some ⟨m, path⟩) ∧
      cs.Pairwise fun c d => c.origin? ≠ d.origin? := by
  induction lines generalizing n cs with
  | nil =>
    cases h
    exact ⟨by simp, .nil⟩
  | cons line lines ih =>
    rw [readLines] at h
    split at h
    · cases h
    · obtain ⟨horigins, hdistinct⟩ := ih h
      refine ⟨?_, hdistinct⟩
      intro c hc
      obtain ⟨m, hm, ho⟩ := horigins c hc
      exact ⟨m, by omega, ho⟩
    · next c hline =>
      split at h
      · cases h
      · next cs' hrest =>
        cases h
        have ho := origin?_withOrigin (declared_of_readLine hline) ⟨n, path⟩
        obtain ⟨horigins, hdistinct⟩ := ih hrest
        constructor
        · refine List.forall_mem_cons.mpr ⟨⟨n, Int.le_refl n, ho⟩, ?_⟩
          intro d hd
          obtain ⟨m, hm, hdo⟩ := horigins d hd
          exact ⟨m, by omega, hdo⟩
        · refine List.pairwise_cons.mpr ⟨?_, hdistinct⟩
          intro d hd he
          obtain ⟨m, hm, hdo⟩ := horigins d hd
          rw [ho, hdo, Option.some.injEq, Origin.mk.injEq] at he
          omega

theorem pairwise_origin?_of_read {files : Files.Tree} {input : Input} {cs : List Component}
    (h : input.read files = .ok cs) : cs.Pairwise fun c d => c.origin? ≠ d.origin? := by
  cases input with
  | text s => exact (origins_of_readLines h).2
  | file path =>
    change readProject files path = .ok cs at h
    unfold readProject at h
    split_ifs at h
    split at h
    · cases h
    · cases h
    · exact (origins_of_readLines h).2

end Source
end Schematic
