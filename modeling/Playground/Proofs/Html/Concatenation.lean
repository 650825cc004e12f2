import Playground.Proofs.Html.Outline
import Playground.Proofs.Html.Seams

/-! Texts put together. -/

namespace Playground.Html

open Text

namespace Token

/-- The tokens of a text stay what they are in front of another text, when each of them ends by
itself or is an angle that begins nothing, and no angle at the end comes to begin something. -/
theorem ofText_seam {cs rest : List Char} (ended : ∀ t ∈ ofText cs, t.ended = true ∨ t = char '<')
    (seam : ¬ Dangles cs ∨ rest.head? = some '<') :
    ofText (cs ++ rest) = ofText cs ++ ofText rest := by
  fun_induction ofText cs with
  | case1 => rfl
  | case2 c cs _ ih =>
    have whole := next_lexeme c cs
    rw [List.forall_mem_cons] at ended
    have later : ¬ Dangles (next c cs).2 ∨ rest.head? = some '<' := by
      have behind : (next c cs).2 <:+ c :: cs := ⟨_, whole⟩
      refine seam.imp_left fun calm dangles => calm ?_
      exact dangles.imp (·.trans behind) (·.trans behind)
    specialize ih ended.2 later
    rcases ended.1 with ends | angle
    · calc ofText (c :: cs ++ rest)
          = ofText ((next c cs).1.lexeme ++ ((next c cs).2 ++ rest)) := by
            rw [← List.append_assoc, whole]
        _ = (next c cs).1 :: ofText ((next c cs).2 ++ rest) := (sound_of_ended ends).ofText _
        _ = (next c cs).1 :: ofText (next c cs).2 ++ ofText rest := by rw [ih, List.cons_append]
    · -- an angle that begins nothing takes only itself, so all that is behind it is left
      rw [angle] at whole
      obtain rfl : '<' = c := (List.cons.inj whole).1
      have stray : Stray (cs ++ []) := by
        rw [List.append_nil]
        exact next_angle.1 angle
      have alone := next_stray_rest (next_angle.1 angle)
      have kept := next_stray_rest (stray.exchange seam)
      rw [alone] at ih ⊢
      calc ofText ('<' :: (cs ++ rest))
          = char '<' :: ofText (cs ++ rest) := by rw [ofText_cons, kept]
        _ = char '<' :: ofText cs ++ ofText rest := by rw [ih, List.cons_append]

theorem ofText_clean {cs : List Char} (clean : ∀ t ∈ ofText cs, t.ended = true ∨ t = char '<')
    (calm : ¬ Dangles cs) (rest : List Char) : ofText (cs ++ rest) = ofText cs ++ ofText rest :=
  ofText_seam clean (.inl calm)

end Token

theorem extent_closed {depth pos : Nat} {stack : List String} {ts : List Token}
    (opened : depth < stack.length) (closed : (restackAll stack ts).length ≤ depth) (us : List Token) :
    extent depth pos stack (ts ++ us) = extent depth pos stack ts := by
  cases closes : closing? depth pos stack ts with
  | none => exact absurd (lt_length_of_closing? closes opened) (Nat.not_lt.2 closed)
  | some span => simp [extent, closing?_append, closes]

theorem outline_closed {pos : Nat} {stack : List String} {ts : List Token}
    (closed : restackAll stack ts = []) (us : List Token) :
    outline pos stack ts us = outline pos stack ts [] := by
  induction ts generalizing pos stack with
  | nil => rfl
  | cons t ts ih =>
    have here : t.elementIn pos stack (ts ++ us) = t.elementIn pos stack (ts ++ []) := by
      rw [List.append_nil, Token.elementIn, Token.elementIn]
      cases tagged : t.element? pos with
      | none => rfl
      | some e =>
        cases alone : t.isAlone with
        | true => rfl
        | false =>
          have deeper := Token.restack_deeper tagged alone stack
          have shut : (restackAll (t.restack stack) ts).length ≤ stack.length := by
            rw [← restackAll_cons, closed]
            exact Nat.zero_le _
          rw [extent_closed deeper shut]
    rw [outline, outline, here, ih closed]

/-- What a scan of a text has left open when it comes to the end. -/
def openAtEnd (doc : String) : List OpenElement :=
  ((Token.ofText doc.toList).foldl Scan.step Scan.start).opened

/-- A text whose end is the end of all that is in it: comments, declarations, tags and raw text end
before it, no element is left open, and no `<` or `</` stands at the end. Close tags of nothing,
elements closed by the tags around them and angles that begin nothing may be in it. -/
structure EndsClean (doc : String) : Prop where
  ended : ∀ t ∈ Token.ofText doc.toList, t.ended = true ∨ t = .char '<'
  closed : openAtEnd doc = []
  calm : ¬ Token.Dangles doc.toList

theorem tags_foldl (s : Scan) (ts : List Token) :
    (ts.foldl Scan.step s).tags = restackAll s.tags ts := by
  induction ts generalizing s with
  | nil => rfl
  | cons t ts ih => rw [List.foldl_cons, ih, Scan.tags_step, restackAll_cons]

theorem EndsClean.restackAll {doc : String} (clean : EndsClean doc) :
    Html.restackAll [] (Token.ofText doc.toList) = [] := by
  have tags := tags_foldl Scan.start (Token.ofText doc.toList)
  have none_ : ((Token.ofText doc.toList).foldl Scan.step Scan.start).opened = [] := clean.closed
  rw [Scan.tags, none_] at tags
  exact tags.symm

/-- Scanning a text that ends clean in front of any other text lists the elements of the one and then
those of the other, moved along. -/
theorem scan_append {a : String} (clean : EndsClean a) (b : String) :
    scan (a ++ b) = scan a ++ (scan b).map (·.shift a.utf8ByteSize) := by
  let front := Token.ofText a.toList
  let back := Token.ofText b.toList
  have tokens : Token.ofText (a ++ b).toList = front ++ back := by
    rw [String.toList_append]
    exact Token.ofText_clean clean.ended clean.calm b.toList
  have size_ : 0 + width front = 0 + a.utf8ByteSize := by
    rw [width, Token.ofText_lexeme, size_toList]
  calc scan (a ++ b)
      = outline 0 [] (front ++ back) [] := by rw [scan_outline, tokens]
    _ = outline 0 [] front (back ++ []) ++
          outline (0 + width front) (restackAll [] front) back [] := outline_append 0 [] front back []
    _ = outline 0 [] front [] ++ outline (0 + a.utf8ByteSize) [] back [] := by
        rw [outline_closed clean.restackAll, clean.restackAll, size_]
    _ = scan a ++ (scan b).map (·.shift a.utf8ByteSize) := by
        rw [outline_shift, ← scan_outline, ← scan_outline]

/-- A list whose items are closed by the list, with an angle and a close tag that mean nothing. -/
def looseList : String := "<ul><li>1 < 2</b><li>é</ul><!-- > --><title></ul></title>"

theorem looseList_appended : EndsClean looseList ∧
    scan (looseList ++ "</ul><p>x") =
      scan looseList ++ [⟨"p", [], 63, 65, 66, some 67, 67⟩] := by
  have clean : EndsClean looseList := by
    constructor
    · decide +kernel
    · decide +kernel
    · decide
  have tail : (scan "</ul><p>x").map (·.shift looseList.utf8ByteSize) =
      [⟨"p", [], 63, 65, 66, some 67, 67⟩] := by
    decide +kernel
  refine ⟨clean, ?_⟩
  rw [scan_append clean, tail]

end Playground.Html
