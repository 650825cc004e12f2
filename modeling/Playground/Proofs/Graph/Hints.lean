import Playground.Proofs.Graph.StoredPass
import Playground.Proofs.Html.Outline
import Playground.Proofs.Pairs

/-! The hints of a block and the attributes of its marker. -/

namespace Playground

open Html

namespace Html

/-- The values that a tag gives the attributes of just that name, in order; a bare one gives the
empty value. -/
def Element.valuesOf (e : Element) (name : String) : List String :=
  (e.attrs.filter fun a => a.name == name).map fun a => a.value.getD ""

theorem RawAttribute.lowered_place {pos : Nat} {attrs : List RawAttribute} :
    ∀ a ∈ placeAll pos attrs, lowerAscii a.name = a.name := by
  induction attrs generalizing pos with
  | nil => nofun
  | cons a attrs ih =>
    rw [placeAll, List.forall_mem_cons]
    refine ⟨?_, ih⟩
    simp only [place, lowerAscii, String.toList_ofList, lower_lower]

theorem lowered_of_scan {doc : String} {e : Element} (mem : e ∈ scan doc) :
    ∀ a ∈ e.attrs, lowerAscii a.name = a.name := by
  rw [scan_outline] at mem
  obtain ⟨before, t, after, -, found⟩ := mem_outline.1 mem
  obtain ⟨d, tagged, rfl⟩ := Option.map_eq_some_iff.1 found
  have attrs : ∀ a ∈ d.attrs, lowerAscii a.name = a.name := by
    cases t with
    | openTag | raw =>
      cases tagged
      exact RawAttribute.lowered_place
    | char | aside | closeTag | unfinished => cases tagged
  split <;> exact attrs

section Lowered

variable {e : Element} (lowered : ∀ a ∈ e.attrs, lowerAscii a.name = a.name)
include lowered

theorem attr?_head? (name : String) : e.attr? name = (e.valuesOf (lowerAscii name)).head? := by
  have same : ∀ a ∈ e.attrs, sameIgnoringCase a.name name = (a.name == lowerAscii name) := by
    intro a mem
    rw [sameIgnoringCase, Bool.eq_iff_iff, beq_iff_eq, beq_iff_eq]
    calc Text.lower a.name.toList = Text.lower name.toList
        ↔ lowerAscii a.name = lowerAscii name := String.ofList_inj.symm
      _ ↔ a.name = lowerAscii name := by rw [lowered a mem]
  calc e.attr? name
      = (e.attrs.filter fun a => sameIgnoringCase a.name name).head?.map fun a => a.value.getD "" := by
        rw [List.head?_filter]
        rfl
    _ = (e.valuesOf (lowerAscii name)).head? := by
        rw [List.filter_congr same, Element.valuesOf, List.head?_map]

theorem valuesOf_capital {name : String} (capital : lowerAscii name ≠ name) :
    e.valuesOf name = [] := by
  rw [Element.valuesOf, List.map_eq_nil_iff, List.filter_eq_nil_iff]
  intro a mem named
  apply capital
  rw [← beq_iff_eq.1 named]
  exact lowered a mem

end Lowered

theorem lowerAscii_data (n : String) : lowerAscii ("data-" ++ n) = "data-" ++ lowerAscii n := by
  have lead : Text.lower "data-".toList = "data-".toList := by decide
  rw [lowerAscii, String.toList_append, Text.lower, List.map_append, ← Text.lower, ← Text.lower, lead,
    String.ofList_append, String.ofList_toList, lowerAscii]

theorem dataAttrs_valuesOf (e : Element) (n : String) :
    (e.dataAttrs.filter fun pair => pair.1 == n).map Prod.snd = e.valuesOf ("data-" ++ n) := by
  rw [Element.dataAttrs, Element.valuesOf]
  induction e.attrs with
  | nil => rfl
  | cons a attrs ih =>
    rw [List.filterMap_cons, List.filter_cons]
    cases dropped : Text.dropLead? "data-".toList a.name.toList with
    | none =>
      have other : (a.name == "data-" ++ n) = false := by
        apply beq_false_of_ne
        intro named
        rw [named, String.toList_append, Text.dropLead?_append] at dropped
        cases dropped
      simp only [Option.map_none, ih, other, Bool.false_eq_true, if_false]
    | some rest =>
      have name : a.name = "data-" ++ String.ofList rest := by
        rw [← String.ofList_toList (s := a.name), Text.eq_append_of_dropLead? dropped,
          String.ofList_append, String.ofList_toList]
      have same : (a.name == "data-" ++ n) = (String.ofList rest == n) := by
        rw [name, Bool.eq_iff_iff, beq_iff_eq, beq_iff_eq, String.append_right_inj]
      rw [Option.map_some, List.filter_cons, same]
      cases String.ofList rest == n with
      | true => simp only [if_true, List.map_cons, ih]
      | false => simp only [Bool.false_eq_true, if_false, ih]

end Html

variable {doc : String} {kind : GraphKind} {e : Element} {block : EmbeddedBlock}

theorem hints_of_ofMarkers {index : Nat} {markers : List Element}
    (mem : (e, block) ∈ EmbeddedBlock.ofMarkers kind doc index markers) :
    block.hints = sortByKey (e.dataAttrs.filter fun (name, _) => name != "output" && name != "src") := by
  induction markers generalizing index with
  | nil => cases mem
  | cons m markers ih =>
    rw [EmbeddedBlock.ofMarkers] at mem
    split at mem
    · next made =>
      rcases List.mem_cons.1 mem with same | later
      · cases same
        simp only [EmbeddedBlock.ofMarker?, Option.ite_none_left_eq_some, Option.some.injEq] at made
        rw [← made.2]
      · exact ih later
    · exact ih mem

theorem hints_getLast? (found : (e, block) ∈ blocksIn (scan doc) doc kind) {n : String}
    (free : n ≠ "output" ∧ n ≠ "src") :
    block.hints.lookup n = (e.valuesOf ("data-" ++ n)).getLast? := by
  have kept : ∀ pair : String × String,
      ((pair.1 == n) && (pair.1 != "output" && pair.1 != "src")) = (pair.1 == n) := by
    intro pair
    by_cases same : pair.1 = n
    · simp [same, free]
    · simp [same]
  rw [hints_of_ofMarkers found, lookup_sortByKey, lastValue?_eq_getLast?, List.filter_filter]
  simp only [kept, dataAttrs_valuesOf]

/-- The hints of a block, for every name but those of its target and its source: a hint is there just
when the marker has the attribute, and it is what looking the attribute up finds unless the name is
asked for in capitals or the attribute is repeated and its first value is not its last. -/
theorem hints_agree_iff (found : (e, block) ∈ blocksIn (scan doc) doc kind) {n : String}
    (free : n ≠ "output" ∧ n ≠ "src") :
    ((block.hints.lookup n).isSome ↔ ∃ a ∈ e.attrs, a.name = "data-" ++ n) ∧
      block.hints.lookup n = (e.valuesOf ("data-" ++ n)).getLast? ∧
      (block.hints.lookup n = e.attr? ("data-" ++ n) ↔
        e.valuesOf ("data-" ++ lowerAscii n) = [] ∨
          lowerAscii n = n ∧
            (e.valuesOf ("data-" ++ n)).head? = (e.valuesOf ("data-" ++ n)).getLast?) := by
  have lowered := lowered_of_scan (script_of_block found).1
  have hint := hints_getLast? found free
  refine ⟨?_, hint, ?_⟩
  · simp [hint, Element.valuesOf]
  · rw [hint, attr?_head? lowered, lowerAscii_data]
    by_cases lower : lowerAscii n = n
    · simp only [lower, true_and]
      cases e.valuesOf ("data-" ++ n) with
      | nil => simp
      | cons value values => simp [eq_comm]
    · have capital : lowerAscii ("data-" ++ n) ≠ "data-" ++ n := by
        rw [lowerAscii_data]
        intro same
        exact lower (String.append_right_inj _ |>.1 same)
      rw [valuesOf_capital lowered capital, List.getLast?_nil, eq_comm, List.head?_eq_none_iff]
      simp only [lower, false_and, or_false]

def twoLayouts : String :=
  "<script type=application/graph-graphviz data-output=g data-layout=dot data-layout=neato></script>"

theorem second_layout_is_hint : ∃ e block,
    (e, block) ∈ blocksIn (scan twoLayouts) twoLayouts .graphviz ∧
      ("layout" ≠ "output" ∧ "layout" ≠ "src") ∧
      block.hints.lookup "layout" = some "neato" ∧ e.attr? "data-layout" = some "dot" ∧
      (e.valuesOf "data-layout").head? ≠ (e.valuesOf "data-layout").getLast? := by
  have read : (blocksIn (scan twoLayouts) twoLayouts .graphviz).map
      (fun b => (b.2.hints.lookup "layout", b.1.attr? "data-layout")) = [(some "neato", some "dot")] := by
    rw [show twoLayouts = String.ofList _ from rfl, scan_ofList]
    decide +kernel
  have mem : (some "neato", some "dot") ∈ (blocksIn (scan twoLayouts) twoLayouts .graphviz).map
      (fun b => (b.2.hints.lookup "layout", b.1.attr? "data-layout")) := by
    rw [read]
    exact List.mem_singleton_self _
  obtain ⟨⟨e, block⟩, found, values⟩ := List.mem_map.1 mem
  obtain ⟨hint, attr⟩ := Prod.mk.inj values
  have free : "layout" ≠ "output" ∧ "layout" ≠ "src" := by decide
  have lower : lowerAscii "layout" = "layout" := by decide
  refine ⟨e, block, found, free, hint, attr, fun same => ?_⟩
  have agree := (hints_agree_iff found free).2.2.2 (.inr ⟨lower, same⟩)
  rw [hint] at agree
  exact absurd (agree.trans attr) (by decide)

end Playground
