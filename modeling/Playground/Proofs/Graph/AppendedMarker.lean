import Playground.Proofs.Graph.CacheText
import Playground.Proofs.Html.Lexing
import Playground.Proofs.Html.Scripts

/-! What a cache marker put at the end of a text is read as. -/

namespace Playground.Html

open ArtifactCache

theorem splitThrough_marker (a : List Char) :
    (∃ p q, a = p ++ q ∧ '>' ∈ p ∧
      ∀ tail, Text.splitThrough '>' (a ++ (markerOpen ++ tail)) = (p, q ++ (markerOpen ++ tail))) ∨
    ∀ tail, Text.splitThrough '>' (a ++ (markerOpen ++ tail)) = (a ++ markerOpen, tail) := by
  by_cases found : '>' ∈ a
  · obtain ⟨p, q, rfl, clean⟩ := List.eq_append_cons_of_mem found
    refine .inl ⟨p ++ ['>'], q, by simp, by simp, ?_⟩
    intro tail
    rw [List.append_assoc, List.cons_append, Text.splitThrough_stop clean]
  · refine .inr ?_
    intro tail
    have shape : markerOpen = "<script type=\"data-urls\"".toList ++ ['>'] := rfl
    have clean : '>' ∉ a ++ "<script type=\"data-urls\"".toList := by
      intro mem
      rcases List.mem_append.1 mem with mem | mem
      · exact found mem
      · exact absurd mem (by decide)
    have whole : a ++ (markerOpen ++ tail) =
        a ++ "<script type=\"data-urls\"".toList ++ '>' :: tail := by
      rw [shape]
      generalize "<script type=\"data-urls\"".toList = m
      simp
    rw [whole, Text.splitThrough_stop clean, shape, List.append_assoc]

theorem markerOpen_ne_nil : markerOpen ≠ [] := List.cons_ne_nil _ _

theorem splitComment_open (tail : List Char) :
    splitComment (markerOpen ++ tail) =
      (markerOpen ++ (splitComment tail).1, (splitComment tail).2) := rfl

theorem splitComment_marker (a : List Char) :
    (∃ p q, a = p ++ q ∧
      ∀ tail, splitComment (a ++ (markerOpen ++ tail)) = (p, q ++ (markerOpen ++ tail))) ∨
    ∀ tail, splitComment (a ++ (markerOpen ++ tail)) =
      (a ++ (markerOpen ++ (splitComment tail).1), (splitComment tail).2) := by
  fun_induction splitComment a with
  | case1 => exact .inr fun tail => splitComment_open tail
  | case2 cs => exact .inl ⟨['-', '-', '>'], cs, rfl, fun tail => rfl⟩
  | case3 c cs other before after _ ih =>
    have goes : ∀ tail, splitComment (c :: (cs ++ (markerOpen ++ tail))) =
        (c :: (splitComment (cs ++ (markerOpen ++ tail))).1,
          (splitComment (cs ++ (markerOpen ++ tail))).2) := by
      intro tail
      rw [splitComment]
      rintro ds rfl same
      cases cs with
      | nil => cases same
      | cons d cs =>
        cases cs with
        | nil => cases same
        | cons e cs =>
          cases same
          exact other cs rfl rfl
    rcases ih with ⟨p, q, rfl, ends⟩ | open_
    · refine .inl ⟨c :: p, q, rfl, ?_⟩
      intro tail
      rw [List.cons_append, goes, ends]
    · refine .inr ?_
      intro tail
      rw [List.cons_append, goes, open_]
      rfl

theorem splitRaw_clean {tag m : List Char} (clean : '<' ∉ m) (tail : List Char) :
    splitRaw tag (m ++ tail) = (m ++ (splitRaw tag tail).1, (splitRaw tag tail).2) := by
  induction m with
  | nil => rfl
  | cons c m ih =>
    simp only [List.mem_cons, not_or] at clean
    have stays : closesRaw tag (c :: (m ++ tail)) = false := by
      unfold closesRaw
      split
      · next whole => exact absurd (List.cons.inj whole).1.symm clean.1
      · rfl
    rw [List.cons_append, splitRaw, if_neg (Bool.eq_false_iff.1 stays), ih clean.2]
    rfl

theorem splitRaw_open (tag tail : List Char) :
    splitRaw tag (markerOpen ++ tail) =
      (markerOpen ++ (splitRaw tag tail).1, (splitRaw tag tail).2) := by
  have shape : markerOpen = '<' :: "script type=\"data-urls\">".toList := rfl
  have clean : '<' ∉ "script type=\"data-urls\">".toList := by decide
  have stays : closesRaw tag ('<' :: ("script type=\"data-urls\">".toList ++ tail)) = false := rfl
  rw [shape, List.cons_append, splitRaw, if_neg (Bool.eq_false_iff.1 stays), splitRaw_clean clean]
  rfl

theorem splitRaw_marker {tag : List Char} (foreign : '<' ∉ tag) (a : List Char) :
    (∃ p q, a = p ++ q ∧ q ≠ [] ∧
      ∀ tail, splitRaw tag (a ++ (markerOpen ++ tail)) = (p, q ++ (markerOpen ++ tail))) ∨
    ∀ tail, splitRaw tag (a ++ (markerOpen ++ tail)) =
      (a ++ (markerOpen ++ (splitRaw tag tail).1), (splitRaw tag tail).2) := by
  induction a with
  | nil => exact .inr fun tail => splitRaw_open tag tail
  | cons c a ih =>
    have same : ∀ tail, closesRaw tag (c :: (a ++ (markerOpen ++ tail))) =
        closesRaw tag (c :: (a ++ markerOpen)) := by
      intro tail
      have local_ := closesRaw_upto (c := c) foreign (by decide) (by decide) a
        ("script type=\"data-urls\">".toList ++ tail) "script type=\"data-urls\">".toList
      exact local_
    by_cases closes : closesRaw tag (c :: (a ++ markerOpen)) = true
    · refine .inl ⟨[], c :: a, rfl, by simp, ?_⟩
      intro tail
      rw [List.cons_append, splitRaw, same, if_pos closes]
    · have goes : ∀ tail, splitRaw tag (c :: (a ++ (markerOpen ++ tail))) =
          (c :: (splitRaw tag (a ++ (markerOpen ++ tail))).1,
            (splitRaw tag (a ++ (markerOpen ++ tail))).2) := by
        intro tail
        rw [splitRaw, same, if_neg closes]
      rcases ih with ⟨p, q, rfl, some_, ends⟩ | open_
      · refine .inl ⟨c :: p, q, rfl, some_, ?_⟩
        intro tail
        rw [List.cons_append, goes, ends]
      · refine .inr ?_
        intro tail
        rw [List.cons_append, goes, open_]
        rfl

namespace Token

def Lists (target : String) (t : Token) : Prop :=
  t.isScriptOf cacheMarkerType = true ∧
    ∃ cache, parse (String.ofList t.content) = .ok cache ∧ target ∈ cache.targets

def Waits (t : Token) : Prop :=
  ∃ name body, t = raw name body [] [] ∧ body.isScriptOf name cacheMarkerType = true

def Mute (t : Token) : Prop := ¬ t.Waits ∧ ∀ target, ¬ t.Lists target

theorem parse_nothing : parse (String.ofList []) = .ok empty := rfl

theorem not_lists_empty {t : Token} (none_ : t.content = []) (target : String) :
    ¬ t.Lists target := by
  rintro ⟨-, cache, read, mem⟩
  rw [none_, parse_nothing] at read
  cases read
  cases mem

theorem not_lists_marker {t : Token} {a b : List Char}
    (content : t.content = a ++ (markerOpen ++ b)) (target : String) : ¬ t.Lists target := by
  rintro ⟨-, cache, read, -⟩
  rw [content] at read
  exact not_parse_markerOpen a b cache read

theorem mute_of_not_script {t : Token} (other : t.isScriptOf cacheMarkerType = false) : t.Mute := by
  constructor
  · rintro ⟨name, body, rfl, script⟩
    rw [isScriptOf, script] at other
    cases other
  · rintro target ⟨script, -⟩
    rw [other] at script
    cases script

theorem not_waits_closing {name content closing : List Char} {body : TagBody}
    (some_ : closing ≠ []) : ¬ (raw name body content closing).Waits := by
  rintro ⟨name', body', same, -⟩
  cases same
  exact some_ rfl

theorem not_waits_content {name content closing : List Char} {body : TagBody}
    (some_ : content ≠ []) : ¬ (raw name body content closing).Waits := by
  rintro ⟨name', body', same, -⟩
  cases same
  exact some_ rfl

end Token

def ListsIn (target : String) (cs : List Char) : Prop := ∃ t ∈ Token.ofText cs, t.Lists target

def WaitsIn (cs : List Char) : Prop := ∃ t ∈ Token.ofText cs, t.Waits

theorem listsIn_cons (target : String) (c : Char) (cs : List Char) :
    ListsIn target (c :: cs) ↔
      (Token.next c cs).1.Lists target ∨ ListsIn target (Token.next c cs).2 := by
  rw [ListsIn, Token.ofText_cons]
  simp [ListsIn]

theorem waitsIn_cons (c : Char) (cs : List Char) :
    WaitsIn (c :: cs) ↔ (Token.next c cs).1.Waits ∨ WaitsIn (Token.next c cs).2 := by
  rw [WaitsIn, Token.ofText_cons]
  simp [WaitsIn]

def NoTags (cs : List Char) : Prop :=
  ∀ a b d, cs = a ++ '<' :: d :: b → isAsciiLetter d = false

theorem NoTags.suffix {cs rest : List Char} (none_ : NoTags cs) (ends : rest <:+ cs) :
    NoTags rest := by
  obtain ⟨lead, rfl⟩ := ends
  rintro a b d rfl
  exact none_ (lead ++ a) b d (by simp)

theorem NoTags.mute {cs : List Char} (none_ : NoTags cs) : ∀ t ∈ Token.ofText cs, t.Mute := by
  fun_induction Token.ofText cs with
  | case1 =>
    intro t mem
    cases mem
  | case2 c rest _ ih =>
    have kept := Token.next_lexeme c rest
    have others := ih (none_.suffix ⟨_, kept⟩)
    intro t mem
    rcases List.mem_cons.1 mem with rfl | mem
    · apply Token.mute_of_not_script
      cases Token.begins c rest with
      | plain _ _ plain => rw [Token.next_plain plain]; rfl
      | stray _ other => rw [Token.next_stray other]; rfl
      | comment r => rw [Token.next_comment]; rfl
      | close r =>
        rw [Token.next_close]
        split <;> rfl
      | mark d r mark other => rw [Token.next_mark mark other]; rfl
      | letter d r letter =>
        rw [none_ [] r d rfl] at letter
        cases letter
    · exact others t mem

theorem noTags_around {a b : List Char} {d : Char} (clean : '<' ∉ a) (clean' : '<' ∉ d :: b)
    (plain : isAsciiLetter d = false) : NoTags (a ++ '<' :: d :: b) := by
  intro x y e whole
  rcases List.append_eq_append_iff.1 whole with ⟨z, rfl, rest⟩ | ⟨z, rfl, rest⟩
  · cases z with
    | nil =>
      cases rest
      exact plain
    | cons f z =>
      have inside := (List.cons.inj rest).2
      exact absurd (by rw [inside]; simp) clean'
  · cases z with
    | nil =>
      cases rest
      exact plain
    | cons f z =>
      have first := (List.cons.inj rest).1
      exact absurd (by rw [first]; simp) clean

theorem noTags_cache (cache : ArtifactCache) :
    NoTags (cache.toJsonText.toList ++ markerClose) := by
  have shape : markerClose = '<' :: '/' :: "script>".toList := rfl
  rw [shape]
  exact noTags_around (toJsonText_clean cache) (by decide) (by decide)

/-- What may follow the open tag of the marker of a cache: nothing yet, or the rest of it. -/
def Follows (cache : ArtifactCache) (tail : List Char) : Prop :=
  tail = [] ∨ tail = cache.toJsonText.toList ++ markerClose

theorem Follows.mute {cache : ArtifactCache} {tail rest : List Char} (follows : Follows cache tail)
    (ends : rest <:+ tail) : ∀ t ∈ Token.ofText rest, t.Mute := by
  rcases follows with rfl | rfl
  · rw [List.suffix_nil.1 ends, Token.ofText]
    intro t mem
    cases mem
  · exact ((noTags_cache cache).suffix ends).mute

/-- How the first token of a text takes the open tag of a marker put after the text. -/
inductive Meets (cache : ArtifactCache) (c : Char) (cs : List Char) : Prop
  | before (t : Token) (rest : List Char) (short : rest.length ≤ cs.length) (idle : ¬ t.Waits)
      (next : ∀ tail, Token.next c (cs ++ (markerOpen ++ tail)) = (t, rest ++ (markerOpen ++ tail)))
  | across (t : Token) (idle : ¬ t.Waits)
      (next : ∀ tail, Token.next c (cs ++ (markerOpen ++ tail)) = (t, tail))
  /-- It is an open tag that ends with the marker's open tag. -/
  | opening (name : List Char) (body : TagBody)
      (next : ∀ tail, Token.next c (cs ++ (markerOpen ++ tail)) = Token.ofOpenTag name body tail)
      (stays : body.selfClosing = false) (opaque_ : Token.tagOf name ∈ rawTextTags)
  /-- It takes in what follows the marker's open tag, and lists nothing. -/
  | swallows (next : ∀ tail, Follows cache tail → ∃ t rest,
      Token.next c (cs ++ (markerOpen ++ tail)) = (t, rest) ∧ rest <:+ tail ∧
        (tail = [] → ¬ t.Waits) ∧ ∀ target, ¬ t.Lists target)

theorem ofOpenTag_suffix (name : List Char) (body : TagBody) (rest : List Char) :
    (Token.ofOpenTag name body rest).2 <:+ rest := by
  unfold Token.ofOpenTag
  split
  · have raw := splitRaw_append (Text.lower name) rest
    have through := Text.splitThrough_append '>' (splitRaw (Text.lower name) rest).2
    refine ⟨(splitRaw (Text.lower name) rest).1 ++
      (Text.splitThrough '>' (splitRaw (Text.lower name) rest).2).1, ?_⟩
    rw [List.append_assoc, through, raw]
  · exact List.suffix_refl rest

theorem meets_raw {cache : ArtifactCache} {c : Char} {cs : List Char} (name a : List Char)
    (body : TagBody)
    (next : ∀ tail, Token.next c (cs ++ (markerOpen ++ tail)) =
      Token.ofOpenTag name body (a ++ (markerOpen ++ tail)))
    (short : a.length ≤ cs.length) : Meets cache c cs := by
  by_cases opens : (!body.selfClosing && decide (Token.tagOf name ∈ rawTextTags)) = true
  · have raw : Token.tagOf name ∈ rawTextTags := by
      simp at opens
      exact opens.2
    have foreign := (Token.raw_name_clean raw).1
    have token : ∀ tail, Token.next c (cs ++ (markerOpen ++ tail)) =
        (.raw name body (splitRaw (Text.lower name) (a ++ (markerOpen ++ tail))).1
          (Text.splitThrough '>' (splitRaw (Text.lower name) (a ++ (markerOpen ++ tail))).2).1,
        (Text.splitThrough '>' (splitRaw (Text.lower name) (a ++ (markerOpen ++ tail))).2).2) := by
      intro tail
      rw [next, Token.ofOpenTag, if_pos opens]
    rcases splitRaw_marker foreign a with ⟨p, q, rfl, some_, cut⟩ | open_
    · rcases splitThrough_marker q with ⟨x, y, rfl, closing, through⟩ | through
      · refine .before (.raw name body p x) y ?_ ?_ ?_
        · simp at short
          omega
        · exact Token.not_waits_closing (by rintro rfl; cases closing)
        · intro tail
          rw [token, cut, through]
      · refine .across (.raw name body p (q ++ markerOpen)) ?_ ?_
        · exact Token.not_waits_closing (by simp [some_])
        · intro tail
          rw [token, cut, through]
    · refine .swallows ?_
      intro tail follows
      refine ⟨_, _, token tail, ?_, ?_, ?_⟩
      · rw [open_]
        have raw := splitRaw_append (Text.lower name) tail
        have through := Text.splitThrough_append '>' (splitRaw (Text.lower name) tail).2
        refine ⟨(splitRaw (Text.lower name) tail).1 ++
          (Text.splitThrough '>' (splitRaw (Text.lower name) tail).2).1, ?_⟩
        rw [List.append_assoc, through, raw]
      · rw [open_]
        exact fun _ => Token.not_waits_content (by simp [markerOpen_ne_nil])
      · rw [open_]
        exact Token.not_lists_marker rfl
  · refine .before (.openTag name body) a short ?_ ?_
    · rintro ⟨name', body', same, -⟩
      cases same
    · intro tail
      rw [next, Token.ofOpenTag, if_neg opens]

theorem markerOpen_ends {x y : List Char} (whole : markerOpen = x ++ y)
    (ends : x.getLast? = some '>') : x = markerOpen ∧ y = [] := by
  have shape : markerOpen = "<script type=\"data-urls\"".toList ++ ['>'] := rfl
  have clean : '>' ∉ "<script type=\"data-urls\"".toList := by decide
  rw [shape] at whole ⊢
  generalize "<script type=\"data-urls\"".toList = m at whole clean ⊢
  obtain ⟨z, rfl⟩ := List.getLast?_eq_some_iff.1 ends
  rcases List.append_eq_append_iff.1 whole with ⟨w, same, rest⟩ | ⟨w, same, -⟩
  · cases w with
    | nil =>
      rw [List.append_nil] at same
      exact absurd (by rw [← same]; simp) clean
    | cons c w =>
      simp only [List.cons_append, List.cons.injEq, List.nil_eq, List.append_eq_nil_iff] at rest
      obtain ⟨rfl, rfl, rfl⟩ := rest
      exact ⟨same, rfl⟩
  · exact absurd (by rw [same]; simp) clean

theorem getLast?_of_append {x y : List Char} {c : Char} (ends : (x ++ y).getLast? = some c)
    (some_ : y ≠ []) : y.getLast? = some c := by
  rw [List.getLast?_append] at ends
  cases last : y.getLast? with
  | none => exact absurd (List.getLast?_eq_none_iff.1 last) some_
  | some d =>
    rw [last] at ends
    exact ends

theorem open_at_marker {body : TagBody} {b : List Char} (same : body.lexeme = b ++ markerOpen) :
    body.selfClosing = false := by
  cases closing : body.selfClosing with
  | false => rfl
  | true =>
    have shape : markerOpen = "<script type=\"data-urls".toList ++ ['"', '>'] := rfl
    rw [TagBody.lexeme, TagBody.bracket, if_pos closing, shape, ← List.append_assoc] at same
    have last := (List.append_inj' same rfl).2
    cases last

theorem read_marker (b : List Char) :
    (∃ body a, b = body.lexeme ++ a ∧
      ∀ tail, TagBody.read (b ++ (markerOpen ++ tail)) = some (body, a ++ (markerOpen ++ tail))) ∨
    (∃ body : TagBody, body.selfClosing = false ∧
      ∀ tail, TagBody.read (b ++ (markerOpen ++ tail)) = some (body, tail)) ∨
    ∀ tail body rest, TagBody.read (b ++ (markerOpen ++ tail)) = some (body, rest) →
      ∃ x, tail = x ++ '>' :: rest := by
  cases read : TagBody.read (b ++ markerOpen) with
  | some result =>
    obtain ⟨body, rest⟩ := result
    obtain ⟨whole, sound⟩ := TagBody.read_iff.1 read
    rcases List.append_eq_append_iff.1 whole with ⟨x, same, split⟩ | ⟨a, same, rfl⟩
    · by_cases empty : x = []
      · subst empty
        rw [List.append_nil] at same
        refine .inl ⟨body, [], by rw [same, List.append_nil], ?_⟩
        intro tail
        rw [← same]
        exact TagBody.read_sound sound _
      · have ends := body.lexeme_getLast
        rw [same] at ends
        obtain ⟨rfl, rfl⟩ := markerOpen_ends split (getLast?_of_append ends empty)
        refine .inr (.inl ⟨body, open_at_marker same, ?_⟩)
        intro tail
        rw [← List.append_assoc, ← same]
        exact TagBody.read_sound sound tail
    · refine .inl ⟨body, a, same, ?_⟩
      intro tail
      rw [same, List.append_assoc]
      exact TagBody.read_sound sound _
  | none =>
    refine .inr (.inr ?_)
    intro tail body rest read'
    obtain ⟨whole, sound⟩ := TagBody.read_iff.1 read'
    rw [← List.append_assoc] at whole
    rcases List.append_eq_append_iff.1 whole with ⟨x, same, split⟩ | ⟨a, same, -⟩
    · by_cases empty : x = []
      · subst empty
        have here := TagBody.read_sound sound []
        rw [same, List.append_nil, List.append_nil, read] at here
        cases here
      · have ends := body.lexeme_getLast
        rw [same] at ends
        obtain ⟨y, rfl⟩ := List.getLast?_eq_some_iff.1 (getLast?_of_append ends empty)
        exact ⟨y, by rw [split, List.append_assoc]; rfl⟩
    · have here := TagBody.read_sound sound a
      rw [← same, read] at here
      cases here

theorem while_marker {p : Char → Bool} (stops : p '<' = false) (a tail : List Char) :
    (a ++ (markerOpen ++ tail)).takeWhile p = a.takeWhile p ∧
      (a ++ (markerOpen ++ tail)).dropWhile p = a.dropWhile p ++ (markerOpen ++ tail) := by
  have shape : markerOpen = '<' :: "script type=\"data-urls\">".toList := rfl
  rw [shape]
  generalize "script type=\"data-urls\">".toList = m
  induction a with
  | nil => simp [stops]
  | cons c a ih =>
    rw [List.cons_append, List.takeWhile_cons, List.takeWhile_cons, List.dropWhile_cons,
      List.dropWhile_cons]
    split
    · exact ⟨by rw [ih.1], ih.2⟩
    · exact ⟨rfl, rfl⟩

theorem splitRaw_close {w : List Char} (clean : '<' ∉ w) :
    splitRaw "script".toList (w ++ markerClose) = (w, markerClose) := by
  have closes : splitRaw "script".toList markerClose = ([], markerClose) := rfl
  rw [splitRaw_clean clean, closes, List.append_nil]

theorem markerClose_ends {w rest : List Char} (whole : markerClose = w ++ '>' :: rest) :
    rest = [] := by
  have shape : markerClose = "</script".toList ++ ['>'] := rfl
  have clean : '>' ∉ "</script".toList := by decide
  rw [shape] at whole
  generalize "</script".toList = m at whole clean
  rcases List.append_eq_append_iff.1 whole with ⟨z, rfl, rest'⟩ | ⟨z, rfl, rest'⟩
  · cases z with
    | nil => exact (List.cons.inj rest').2.symm
    | cons c z =>
      have inside := (List.cons.inj rest').2
      simp at inside
  · cases z with
    | nil => exact (List.cons.inj rest').2
    | cons c z =>
      have first := (List.cons.inj rest').1
      exact absurd (by rw [first]; simp) clean

theorem not_lists_tail {cache : ArtifactCache} (distinct : cache.Distinct) (name : List Char)
    (body : TagBody) {x rest : List Char} (follows : Follows cache (x ++ '>' :: rest))
    (target : String) : ¬ (Token.ofOpenTag name body rest).1.Lists target := by
  by_cases opens : (!body.selfClosing && decide (Token.tagOf name ∈ rawTextTags)) = true
  · have token : (Token.ofOpenTag name body rest).1 =
        .raw name body (splitRaw (Text.lower name) rest).1
          (Text.splitThrough '>' (splitRaw (Text.lower name) rest).2).1 := by
      rw [Token.ofOpenTag, if_pos opens]
    have whole := follows.resolve_left (by simp)
    rw [token]
    rcases List.append_eq_append_iff.1 whole.symm with ⟨w, -, closing⟩ | ⟨w, text, closing⟩
    · rw [markerClose_ends closing]
      exact Token.not_lists_empty rfl target
    · rintro ⟨script, found, read, mem⟩
      have lower : Text.lower name = "script".toList := by
        simp only [Token.isScriptOf, TagBody.isScriptOf, Bool.and_eq_true, beq_iff_eq] at script
        rw [← script.1, Token.tagOf, String.toList_ofList]
      cases w with
      | nil => cases closing
      | cons c w =>
        obtain ⟨rfl, rfl⟩ := List.cons.inj closing
        have clean : '<' ∉ w := by
          have all := toJsonText_clean cache
          rw [text] at all
          intro mem
          exact all (by simp [mem])
        rw [lower] at read
        change parse (String.ofList (splitRaw "script".toList (w ++ markerClose)).1) = _ at read
        rw [splitRaw_close clean] at read
        rw [parse_tail distinct text read] at mem
        cases mem
  · rw [Token.ofOpenTag, if_neg opens]
    exact Token.not_lists_empty rfl target

theorem next_letter_marker {d : Char} {r : List Char} (letter : isAsciiLetter d = true)
    (tail : List Char) :
    Token.next '<' (d :: r ++ (markerOpen ++ tail)) =
      match TagBody.read ((d :: r).dropWhile isTagNameChar ++ (markerOpen ++ tail)) with
      | none => (.unfinished ('<' :: (d :: r ++ (markerOpen ++ tail))), [])
      | some (body, rest) =>
        Token.ofOpenTag ((d :: r).takeWhile isTagNameChar) body rest := by
  have stops : isTagNameChar '<' = false := by decide
  obtain ⟨named, after⟩ := while_marker stops (d :: r) tail
  rw [List.cons_append] at named after ⊢
  cases read : TagBody.read ((d :: r).dropWhile isTagNameChar ++ (markerOpen ++ tail)) with
  | none => simp only [Token.next_letter letter, after, read]
  | some split => simp only [Token.next_letter letter, named, after, read]

theorem meets_letter {cache : ArtifactCache} (distinct : cache.Distinct) {d : Char} {r : List Char}
    (letter : isAsciiLetter d = true) : Meets cache '<' (d :: r) := by
  have dropped := List.IsSuffix.length_le (List.dropWhile_suffix (l := d :: r) isTagNameChar)
  have next := next_letter_marker (r := r) letter
  generalize (d :: r).takeWhile isTagNameChar = name at next
  generalize (d :: r).dropWhile isTagNameChar = b at next dropped
  rcases read_marker b with ⟨body, a, rfl, read⟩ | ⟨body, stays, read⟩ | read
  · refine meets_raw name a body ?_ ?_
    · intro tail
      rw [next, read]
    · rw [List.length_append] at dropped
      omega
  · by_cases opaque_ : Token.tagOf name ∈ rawTextTags
    · refine .opening name body ?_ stays opaque_
      intro tail
      rw [next, read]
    · refine .across (.openTag name body) ?_ ?_
      · rintro ⟨name', body', same, -⟩
        cases same
      · intro tail
        rw [next, read]
        dsimp only
        rw [Token.ofOpenTag, if_neg (by simp [opaque_])]
  · refine .swallows ?_
    intro tail follows
    cases found : TagBody.read (b ++ (markerOpen ++ tail)) with
    | none =>
      have mute : (Token.unfinished ('<' :: (d :: r ++ (markerOpen ++ tail)))).Mute :=
        Token.mute_of_not_script rfl
      exact ⟨_, [], by rw [next, found], List.nil_suffix, fun _ => mute.1, mute.2⟩
    | some result =>
      obtain ⟨body, rest⟩ := result
      obtain ⟨x, rfl⟩ := read tail body rest found
      have inside : rest <:+ x ++ '>' :: rest := ⟨x ++ ['>'], by simp⟩
      refine ⟨(Token.ofOpenTag name body rest).1, (Token.ofOpenTag name body rest).2,
        by rw [next, found], (ofOpenTag_suffix name body rest).trans inside, ?_, ?_⟩
      · intro empty
        simp at empty
      · exact not_lists_tail distinct name body follows

theorem meets_char {cache : ArtifactCache} {c : Char} {cs : List Char}
    (next : ∀ tail, Token.next c (cs ++ (markerOpen ++ tail)) = (.char c, cs ++ (markerOpen ++ tail))) :
    Meets cache c cs :=
  .before (.char c) cs (Nat.le_refl _) (Token.mute_of_not_script rfl).1 next

theorem meets_through {cache : ArtifactCache} {c : Char} {cs r : List Char} (make : List Char → Token)
    (other : ∀ p, (make p).isScriptOf cacheMarkerType = false) (short : r.length ≤ cs.length)
    (next : ∀ tail, Token.next c (cs ++ (markerOpen ++ tail)) =
      (make (Text.splitThrough '>' (r ++ (markerOpen ++ tail))).1,
        (Text.splitThrough '>' (r ++ (markerOpen ++ tail))).2)) :
    Meets cache c cs := by
  have idle : ∀ p, ¬ (make p).Waits := fun p => (Token.mute_of_not_script (other p)).1
  rcases splitThrough_marker r with ⟨p, q, same, -, ends⟩ | ends
  · refine .before (make p) q ?_ (idle p) fun tail => by rw [next, ends]
    rw [same, List.length_append] at short
    omega
  · exact .across (make (r ++ markerOpen)) (idle _) fun tail => by rw [next, ends]

theorem meets_comment (cache : ArtifactCache) (r : List Char) :
    Meets cache '<' ('!' :: '-' :: '-' :: r) := by
  have other (p : List Char) : (Token.aside ('<' :: '!' :: '-' :: '-' :: p)).Mute :=
    Token.mute_of_not_script rfl
  rcases splitComment_marker r with ⟨p, q, rfl, ends⟩ | open_
  · refine .before (.aside ('<' :: '!' :: '-' :: '-' :: p)) q ?_ (other p).1 ?_
    · simp
      omega
    · intro tail
      rw [List.cons_append, List.cons_append, List.cons_append, Token.next_comment, ends]
  · refine .swallows ?_
    intro tail _
    refine ⟨_, (splitComment tail).2, ?_, ⟨_, splitComment_append tail⟩,
      fun _ => (other (r ++ (markerOpen ++ (splitComment tail).1))).1, (other _).2⟩
    rw [List.cons_append, List.cons_append, List.cons_append, Token.next_comment, open_]

theorem meets_close (cache : ArtifactCache) (r : List Char) : Meets cache '<' ('/' :: r) := by
  have stops : isTagNameChar '<' = false := by decide
  have next : ∀ tail, Token.next '<' ('/' :: r ++ (markerOpen ++ tail)) =
      if r.takeWhile isTagNameChar = [] then (.char '<', '/' :: r ++ (markerOpen ++ tail))
      else (.closeTag (r.takeWhile isTagNameChar)
          (Text.splitThrough '>' (r.dropWhile isTagNameChar ++ (markerOpen ++ tail))).1,
        (Text.splitThrough '>' (r.dropWhile isTagNameChar ++ (markerOpen ++ tail))).2) := by
    intro tail
    obtain ⟨named, after⟩ := while_marker stops r tail
    rw [List.cons_append, Token.next_close, named, after]
  by_cases bare : r.takeWhile isTagNameChar = []
  · exact meets_char fun tail => by rw [next, if_pos bare]
  · have dropped := List.IsSuffix.length_le (List.dropWhile_suffix (l := r) isTagNameChar)
    refine meets_through (.closeTag (r.takeWhile isTagNameChar)) (fun _ => rfl) ?_
      fun tail => by rw [next, if_neg bare]
    rw [List.length_cons]
    omega

theorem meets_mark (cache : ArtifactCache) {d : Char} {r : List Char} (mark : d = '!' ∨ d = '?')
    (other : d = '!' → ¬ ['-', '-'] <+: r) : Meets cache '<' (d :: r) := by
  have shape : markerOpen = '<' :: "script type=\"data-urls\">".toList := rfl
  -- the marker's own `<` does not make a comment of it
  have other' : ∀ tail, d = '!' → ¬ ['-', '-'] <+: r ++ (markerOpen ++ tail) := by
    rintro tail bang ⟨more, same⟩
    rw [shape] at same
    cases r with
    | nil => cases same
    | cons e r =>
      cases r with
      | nil => cases same
      | cons f r =>
        cases same
        exact other bang ⟨r, rfl⟩
  exact meets_through (fun p => .aside ('<' :: p)) (fun _ => rfl) (Nat.le_refl _)
    fun tail => Token.next_mark mark (other' tail)

theorem meets {cache : ArtifactCache} (distinct : cache.Distinct) (c : Char) (cs : List Char) :
    Meets cache c cs := by
  cases Token.begins c cs with
  | plain _ _ plain => exact meets_char fun tail => Token.next_plain plain _
  | stray _ other =>
    refine meets_char fun tail => Token.next_stray ?_
    intro d head
    cases cs with
    | nil =>
      have shape : markerOpen = '<' :: "script type=\"data-urls\">".toList := rfl
      rw [shape] at head
      cases head
      decide
    | cons e cs => exact other d head
  | comment r => exact meets_comment cache r
  | close r => exact meets_close cache r
  | mark d r mark other => exact meets_mark cache mark other
  | letter d r letter => exact meets_letter distinct letter

theorem lists_opening {cache : ArtifactCache} (distinct : cache.Distinct) {name : List Char}
    {body : TagBody} (stays : body.selfClosing = false) (opaque_ : Token.tagOf name ∈ rawTextTags)
    (target : String) :
    (Token.ofOpenTag name body (cache.toJsonText.toList ++ markerClose)).1.Lists target ↔
      body.isScriptOf name cacheMarkerType = true ∧ target ∈ cache.targets := by
  have opens : (!body.selfClosing && decide (Token.tagOf name ∈ rawTextTags)) = true := by
    simp [stays, opaque_]
  rw [Token.ofOpenTag, if_pos opens]
  change (Token.raw name body _ _).Lists target ↔ _
  rw [Token.Lists, Token.isScriptOf]
  apply and_congr_right
  intro script
  have lower : Text.lower name = "script".toList := by
    simp only [TagBody.isScriptOf, Bool.and_eq_true, beq_iff_eq] at script
    rw [← script.1, Token.tagOf, String.toList_ofList]
  rw [lower, Token.content, splitRaw_close (toJsonText_clean cache), String.ofList_toList,
    parse_toJsonText distinct]
  constructor
  · rintro ⟨found, read, mem⟩
    cases read
    exact mem
  · intro mem
    exact ⟨cache, rfl, mem⟩

theorem waits_opening {name : List Char} {body : TagBody} (stays : body.selfClosing = false)
    (opaque_ : Token.tagOf name ∈ rawTextTags) :
    (Token.ofOpenTag name body []).1.Waits ↔ body.isScriptOf name cacheMarkerType = true := by
  have opens : (!body.selfClosing && decide (Token.tagOf name ∈ rawTextTags)) = true := by
    simp [stays, opaque_]
  rw [Token.ofOpenTag, if_pos opens]
  constructor
  · rintro ⟨name', body', same, script⟩
    cases same
    exact script
  · intro script
    exact ⟨name, body, rfl, script⟩

theorem Follows.not_listsIn {cache : ArtifactCache} {tail rest : List Char}
    (follows : Follows cache tail) (ends : rest <:+ tail) (target : String) :
    ¬ ListsIn target rest := by
  rintro ⟨t, mem, lists⟩
  exact (follows.mute ends t mem).2 target lists

theorem Follows.not_waitsIn {cache : ArtifactCache} {tail rest : List Char}
    (follows : Follows cache tail) (ends : rest <:+ tail) : ¬ WaitsIn rest := by
  rintro ⟨t, mem, waits⟩
  exact (follows.mute ends t mem).1 waits

theorem listsIn_opening {cache : ArtifactCache} (distinct : cache.Distinct) {c : Char}
    {lead name : List Char} {body : TagBody} (stays : body.selfClosing = false)
    (opaque_ : Token.tagOf name ∈ rawTextTags)
    (next : ∀ tail, Token.next c (lead ++ tail) = Token.ofOpenTag name body tail)
    (target : String) :
    ListsIn target (c :: (lead ++ (cache.toJsonText.toList ++ markerClose))) ↔
      ListsIn target (c :: (lead ++ [])) ∨
        WaitsIn (c :: (lead ++ [])) ∧ target ∈ cache.targets := by
  have whole : Follows cache (cache.toJsonText.toList ++ markerClose) := .inr rfl
  have none_ : Follows cache [] := .inl rfl
  have left := whole.not_listsIn (ofOpenTag_suffix name body _) target
  have right := none_.not_listsIn (ofOpenTag_suffix name body []) target
  have waits := none_.not_waitsIn (ofOpenTag_suffix name body [])
  have empty : ¬ (Token.ofOpenTag name body []).1.Lists target := by
    apply Token.not_lists_empty
    unfold Token.ofOpenTag
    split <;> rfl
  rw [listsIn_cons, listsIn_cons, waitsIn_cons, next, next, lists_opening distinct stays opaque_,
    waits_opening stays opaque_]
  simp only [left, right, waits, empty, or_false, false_or]

def markerBody : TagBody :=
  ⟨[⟨[' '], "type".toList, some ⟨['='], some '"', "data-urls".toList⟩⟩], [], false⟩

theorem markerBody_begins : TagStart "script".toList markerBody := by
  have named : "script".toList.all isTagNameChar = true := by decide
  have lead : [' '].all isLeadChar = true := by decide
  have key : "type".toList.all isAttributeNameChar = true := by decide
  refine ⟨⟨'s', "cript".toList, rfl, by decide⟩, List.all_eq_true.1 named, ?_, ?_⟩
  · rintro c ⟨⟩
    decide
  · refine ⟨⟨⟨List.all_eq_true.1 lead, by decide, List.all_eq_true.1 key, ?_, ?_⟩, trivial⟩, ?_⟩
    · rintro c ⟨⟩
      decide
    · exact .quoted [] [] _ _ '"' (by rintro c ⟨⟩) (by rintro c ⟨⟩) (by decide) (by decide)
    · exact ⟨by rintro c ⟨⟩, by rintro ⟨⟩, by rintro c ⟨⟩ ⟨⟩⟩

theorem next_markerOpen (tail : List Char) :
    Token.next '<' ("script type=\"data-urls\">".toList ++ tail) =
      Token.ofOpenTag "script".toList markerBody tail := by
  have written : "script type=\"data-urls\">".toList = "script".toList ++ markerBody.lexeme := rfl
  rw [written, List.append_assoc, Token.next_openTag markerBody_begins]

theorem listsIn_tails {cache : ArtifactCache} (distinct : cache.Distinct) (cs : List Char)
    (target : String) :
    ListsIn target (cs ++ (markerOpen ++ (cache.toJsonText.toList ++ markerClose))) ↔
      ListsIn target (cs ++ (markerOpen ++ [])) ∨
        WaitsIn (cs ++ (markerOpen ++ [])) ∧ target ∈ cache.targets := by
  induction length : cs.length using Nat.strongRecOn generalizing cs with
  | ind n ih =>
    have whole : Follows cache (cache.toJsonText.toList ++ markerClose) := .inr rfl
    have none_ : Follows cache [] := .inl rfl
    cases cs with
    | nil =>
      have shape : markerOpen = '<' :: "script type=\"data-urls\">".toList := rfl
      rw [List.nil_append, List.nil_append, shape, List.cons_append, List.cons_append]
      exact listsIn_opening distinct rfl (by decide) next_markerOpen target
    | cons c cs =>
      rw [List.cons_append, List.cons_append]
      cases meets distinct c cs with
      | before t rest short idle next =>
        have later := ih rest.length (by rw [← length, List.length_cons]; omega) rest rfl
        rw [listsIn_cons, listsIn_cons, waitsIn_cons, next, next]
        dsimp only
        rw [later, or_assoc]
        simp only [idle, false_or]
      | across t idle next =>
        have left := whole.not_listsIn (List.suffix_refl _) target
        have right := none_.not_listsIn (List.suffix_refl _) target
        have waits := none_.not_waitsIn (List.suffix_refl _)
        rw [listsIn_cons, listsIn_cons, waitsIn_cons, next, next]
        simp only [left, right, waits, idle, or_false, false_and]
      | opening name body next stays opaque_ =>
        have whole' : ∀ tail, cs ++ (markerOpen ++ tail) = (cs ++ markerOpen) ++ tail :=
          fun tail => (List.append_assoc cs markerOpen tail).symm
        rw [whole', whole']
        refine listsIn_opening distinct stays opaque_ ?_ target
        intro tail
        rw [← whole', next]
      | swallows next =>
        obtain ⟨t, rest, first, ends, -, mute⟩ := next _ whole
        obtain ⟨u, rest', first', ends', idle, mute'⟩ := next _ none_
        have left := whole.not_listsIn ends target
        have right := none_.not_listsIn ends' target
        have waits := none_.not_waitsIn ends'
        rw [listsIn_cons, listsIn_cons, waitsIn_cons, first, first']
        simp only [left, right, waits, mute target, mute' target, idle rfl, or_self, false_and]

/-- The targets listed in a text with a marker at its end are those listed in the text with the
marker's open tag alone, and those of the marker if that tag opens one. -/
theorem listsIn_append_marker {cache : ArtifactCache} (distinct : cache.Distinct) (cs : List Char)
    (target : String) :
    ListsIn target (cs ++ cache.toMarker.toList) ↔
      ListsIn target (cs ++ markerOpen) ∨ WaitsIn (cs ++ markerOpen) ∧ target ∈ cache.targets := by
  have tails := listsIn_tails distinct cs target
  rwa [List.append_nil, ← toMarker_toList] at tails

end Playground.Html
