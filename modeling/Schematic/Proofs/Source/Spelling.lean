import Schematic.Proofs.Source.Grammar
import Schematic.Proofs.Source.Writing
import Schematic.Proofs.Text.Numeral

/-! How attributes are written: in decimal, with ticks before labels, and with a dot behind the last label of a
gate. Main statement: the words of an attribute are words of a line, and spell the attribute. -/
namespace Schematic
open Schematic.Source

namespace Source

def Token.numeral (n : Int) : Token := ⟨.number, toString n⟩

/-- A label is written behind a tick. -/
def Token.ticked (l : String) : Token := ⟨.identifier, String.singleton Text.tick ++ l⟩

end Source

/-- A dot closes the labels of a gate. -/
def Value.words (v : Value) : List Token :=
  .word v.content.name :: match v.content with
    | .gate _ => v.labels.map .ticked ++ [⟨.ender, "."⟩]
    | .unset | .gnd | .vcc => []

/-- The words of an attribute: its name, and its arguments. -/
def Attribute.words (a : Attribute) : List Token :=
  .word a.name.text :: match a with
    | .bounds v | .start v | .stop v | .position v => [.numeral v.x, .numeral v.y]
    | .number n | .row n => [.numeral n]
    | .type s => [.word s]
    | .color c => [.word c.name]
    | .label l => [.ticked l]
    | .value v => v.words

/-- The words of a line that declares a component of the kind with the attributes. -/
def declarationOf (k : Kind) (as : List Attribute) : List Token :=
  ⟨.separator, ":"⟩ :: .word k.name :: as.flatMap Attribute.words

section Words

variable {a : Attribute} {as : List Attribute}

theorem isTypeName_of_all {s : String}
    (h : (s.toList.head?.any isLower && s.toList.all isTypeChar) = true) : IsTypeName s := by
  obtain ⟨hhead, hall⟩ := Bool.and_eq_true_iff.mp h
  cases hs : s.toList with
  | nil =>
    rw [hs] at hhead
    cases hhead
  | cons c body =>
    rw [hs] at hhead hall
    obtain ⟨-, hbody⟩ := List.forall_mem_cons.mp (List.all_eq_true.mp hall)
    exact ⟨c, body, hs, hhead, hbody⟩

theorem writable_word {s : String} (h : IsTypeName s) : (Token.word s).Writable where
  spelled := h
  ne_blank := nofun
  ne_error := nofun

theorem writable_numeral {n : Int} (h : InRange n) : (Token.numeral n).Writable where
  spelled := by
    obtain ⟨m, rfl⟩ := Int.eq_ofNat_of_zero_le h.1
    change (toString (m : Int)).toList ≠ [] ∧ ∀ c ∈ (toString (m : Int)).toList, _
    rw [Text.toList_toString_natCast]
    exact ⟨Nat.toDigits_ne_nil, fun c hc => Text.isAsciiDigit_of_mem_toDigits hc⟩
  ne_blank := nofun
  ne_error := nofun

theorem toList_ticked (l : String) : (Token.ticked l).text.toList = Text.tick :: l.toList := by
  simp [Token.ticked]

theorem writable_ticked {l : String} (h : IsLabel l) : (Token.ticked l).Writable where
  spelled := ⟨l.toList, toList_ticked l, by simpa using h.1, h.2⟩
  ne_blank := nofun
  ne_error := nofun

theorem unticked_ticked (l : String) : unticked (Token.ticked l).text = l := by
  rw [unticked, toList_ticked, List.drop_one, List.tail_cons, String.ofList_toList]

/-- All names of kinds, attributes, colors and values are keywords. -/
theorem Kind.isTypeName_name (k : Kind) : IsTypeName k.name :=
  isTypeName_of_all (by cases k <;> decide +kernel)

theorem AttributeName.isTypeName_text (n : AttributeName) : IsTypeName n.text :=
  isTypeName_of_all (by cases n <;> decide +kernel)

theorem Color.isTypeName_name (c : Color) : IsTypeName c.name :=
  isTypeName_of_all (by cases c <;> decide +kernel)

theorem Content.isTypeName_name (c : Content) : IsTypeName c.name :=
  isTypeName_of_all (by rcases c with _ | _ | _ | (_ | _) <;> decide +kernel)

theorem Value.writable_words {v : Value} (h : v.Written) : ∀ t ∈ v.words, t.Writable := by
  obtain ⟨content, ls⟩ := v
  have hname := writable_word content.isTypeName_name
  refine List.forall_mem_cons.mpr ⟨hname, ?_⟩
  cases content with
  | unset | gnd | vcc => simp
  | gate g =>
    intro t ht
    rcases List.mem_append.mp ht with ht | ht
    · obtain ⟨l, hl, rfl⟩ := List.mem_map.mp ht
      exact writable_ticked (h.1 l hl)
    · rw [List.mem_singleton.mp ht]
      exact ⟨rfl, nofun, nofun⟩

theorem Attribute.writable_words (h : a.Written) : ∀ t ∈ a.words, t.Writable := by
  refine List.forall_mem_cons.mpr ⟨writable_word a.name.isTypeName_text, ?_⟩
  cases a with
  | bounds v | start v | stop v | position v =>
    simpa using ⟨writable_numeral h.1, writable_numeral h.2⟩
  | number n | row n => simpa using writable_numeral h
  | type s => simpa using writable_word h
  | color c => simpa using writable_word c.isTypeName_name
  | label l => simpa using writable_ticked h
  | value v => exact v.writable_words h

theorem spellsNumber_numeral {n : Int} (h : InRange n) : SpellsNumber [.numeral n] n :=
  ⟨toString n, rfl, number_toString h.1 h.2⟩

theorem spellsValue_words {v : Value} (h : v.Written) (hset : v.content ≠ .unset) :
    SpellsValue v.words v := by
  obtain ⟨content, ls⟩ := v
  cases content with
  | unset => exact absurd rfl hset
  | gnd | vcc => exact ⟨rfl, h.2 rfl⟩
  | gate g =>
    have hlabels : ls.map (fun l => unticked (Token.ticked l).text) = ls :=
      (List.map_congr_left fun l _ => unticked_ticked l).trans (List.map_id ls)
    refine ⟨_, rfl, ls.map fun l => (Token.ticked l).text, ".", ?_, ?_⟩
    · rw [List.map_map]
      rfl
    · rw [List.map_map]
      exact hlabels.symm

theorem spellsAttribute_words (h : a.Written) (hset : ∀ v, a = .value v → v.content ≠ .unset) :
    SpellsAttribute a.words a := by
  refine ⟨_, rfl, ?_⟩
  cases a with
  | bounds v | start v | stop v | position v =>
    exact ⟨_, _, rfl, spellsNumber_numeral h.1, spellsNumber_numeral h.2⟩
  | number n | row n => exact spellsNumber_numeral h
  | type s | color c => rfl
  | label l => exact ⟨_, rfl, (unticked_ticked l).symm⟩
  | value v => exact spellsValue_words h (hset v rfl)

theorem spellsAttributes_words (h : ∀ a ∈ as, SpellsAttribute a.words a) :
    SpellsAttributes (as.flatMap Attribute.words) as := by
  induction as with
  | nil => exact .nil
  | cons a as ih =>
    obtain ⟨ha, has⟩ := List.forall_mem_cons.mp h
    rw [List.flatMap_cons]
    exact .cons ha (ih has)

theorem writable_declarationOf (k : Kind) (h : ∀ a ∈ as, a.Written) :
    ∀ t ∈ declarationOf k as, t.Writable := by
  refine List.forall_mem_cons.mpr ⟨⟨rfl, nofun, nofun⟩, ?_⟩
  refine List.forall_mem_cons.mpr ⟨writable_word k.isTypeName_name, ?_⟩
  intro t ht
  obtain ⟨a, ha, hta⟩ := List.mem_flatMap.mp ht
  exact Attribute.writable_words (h a ha) t hta

end Words

end Schematic
