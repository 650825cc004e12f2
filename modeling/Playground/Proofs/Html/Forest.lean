import Playground.Proofs.Html.Lexing
import Playground.Proofs.Html.Scripts

/-! Well-formed texts as forests of their elements. -/

namespace Playground.Html

def TagBody.isAlone (name : List Char) (body : TagBody) : Bool :=
  body.selfClosing || decide (Token.tagOf name ∈ voidTags)

/-- Whether tags nest: every open tag that is not alone has its own close tag, and there are no
other close tags. The stack holds the tags that are open, the innermost first. -/
def nested : List String → List Token → Bool
  | stack, [] => stack.isEmpty
  | stack, .openTag name body :: rest =>
    if body.isAlone name then nested stack rest else nested (Token.tagOf name :: stack) rest
  | stack, .closeTag name _ :: rest =>
    match stack with
    | [] => false
    | top :: stack => top == Token.tagOf name && nested stack rest
  | stack, _ :: rest => nested stack rest

/-- Every `<` outside tags, comments and raw text begins a tag, comment or declaration that ends,
and tags nest. -/
def WellFormed (doc : String) : Bool :=
  (Token.ofText doc.toList).all Token.ended && nested [] (Token.ofText doc.toList)

/-- How a text that is given by its characters is scanned. Witnesses are evaluated in this form, as the
characters of a literal are slow to read back from its bytes. -/
theorem scan_ofList (cs : List Char) : scan (String.ofList cs) = elementsOf (Token.ofText cs) := by
  rw [scan, String.toList_ofList]

theorem wellFormed_ofList (cs : List Char) : WellFormed (String.ofList cs) =
    ((Token.ofText cs).all Token.ended && nested [] (Token.ofText cs)) := by
  rw [WellFormed, String.toList_ofList]

/-- Pieces that stand side by side. A piece of a single token carries a mark, which its text does
not show. -/
inductive Forest
  | nil
  | leaf (mark : Nat) (token : Token) (rest : Forest)
  | element (name : List Char) (body : TagBody) (inside : Forest) (closing tail : List Char)
      (rest : Forest)

instance : Inhabited Forest := ⟨.nil⟩

def Token.isAlone : Token → Bool
  | .openTag name body => body.isAlone name
  | .closeTag _ _ | .unfinished _ => false
  | .char _ | .aside _ | .raw _ _ _ _ => true

structure Placed where
  mark : Nat
  token : Token
  element : Element

def Token.element? (pos : Nat) : Token → Option Element
  | .openTag name body => some (Element.ofOpenTag pos name body)
  | .raw name body content closing =>
    let element := Element.ofOpenTag pos name body
    let close := element.openEnd + Text.size content
    some (element.closedAt close (close + Text.size closing))
  | _ => none

def Token.attr? (key : String) : Token → Option String
  | .openTag _ body | .raw _ body _ _ => body.attr? key
  | _ => none

def Token.tag? : Token → Option String
  | .openTag name _ | .raw name _ _ _ => some (tagOf name)
  | _ => none

theorem Token.tag?_of_isScriptOf {t : Token} {type_ : String} (is : t.isScriptOf type_ = true) :
    t.tag? = some "script" := by
  cases t with
  | openTag name body | raw name body content closing =>
    simp only [isScriptOf, TagBody.isScriptOf, Bool.and_eq_true, beq_iff_eq] at is
    rw [tag?, is.1]
  | char | aside | closeTag | unfinished => cases is

structure Placed.Agrees (x : Placed) : Prop where
  tag : x.token.tag? = some x.element.tag
  attr? : ∀ key, x.element.attr? key = x.token.attr? key
  isScriptOf : ∀ type_, x.element.isScriptOf type_ = x.token.isScriptOf type_

theorem Token.element?_agrees {mark : Nat} {t : Token} {pos : Nat} {e : Element}
    (found : t.element? pos = some e) : Placed.Agrees ⟨mark, t, e⟩ := by
  cases t with
  | openTag name body =>
    cases found
    exact ⟨rfl, Element.attr?_ofOpenTag pos name body, Element.isScriptOf_ofOpenTag pos name body⟩
  | raw name body content closing =>
    cases found
    exact ⟨rfl, Element.attr?_ofOpenTag pos name body, Element.isScriptOf_ofOpenTag pos name body⟩
  | char | aside | closeTag | unfinished => cases found

theorem Token.element?_span {t : Token} {pos : Nat} {e : Element}
    (found : t.element? pos = some e) : e.span = ⟨pos, pos + Text.size t.lexeme⟩ := by
  cases t with
  | openTag name body =>
    cases found
    rw [Element.span, Token.lexeme, ← Element.openEnd_ofOpenTag]
    rfl
  | raw name body content closing =>
    cases found
    rw [Element.span, Token.lexeme, Text.size_append, Text.size_append, ← Nat.add_assoc,
      ← Nat.add_assoc, ← Element.openEnd_ofOpenTag]
    rfl
  | char | aside | closeTag | unfinished => cases found

namespace Forest

def tokens : Forest → List Token
  | nil => []
  | leaf _ token rest => token :: rest.tokens
  | element name body inside closing tail rest =>
    .openTag name body :: (inside.tokens ++ .closeTag closing tail :: rest.tokens)

def text (f : Forest) : List Char := f.tokens.flatMap Token.lexeme

def append : Forest → Forest → Forest
  | nil, g => g
  | leaf mark token rest, g => leaf mark token (rest.append g)
  | element name body inside closing tail rest, g =>
    element name body inside closing tail (rest.append g)

/-- Every piece is read back as it stands, and the tags of an element belong together. -/
def Sound : Forest → Prop
  | nil => True
  | leaf _ token rest => token.Sound ∧ token.isAlone = true ∧ rest.Sound
  | element name body inside closing tail rest =>
    (Token.openTag name body).Sound ∧ body.isAlone name = false ∧
      (Token.closeTag closing tail).Sound ∧ Token.tagOf closing = Token.tagOf name ∧
        inside.Sound ∧ rest.Sound

/-- The elements of a forest whose text begins at `pos`, in the order of their open tags. -/
def placed : Nat → Forest → List Placed
  | _, nil => []
  | pos, leaf mark token rest =>
    ((token.element? pos).map (⟨mark, token, ·⟩)).toList ++
      rest.placed (pos + Text.size token.lexeme)
  | pos, element name body inside closing tail rest =>
    let openEnd := pos + Text.size (Token.openTag name body).lexeme
    let close := openEnd + Text.size inside.text
    let stop := close + Text.size (Token.closeTag closing tail).lexeme
    ⟨0, .openTag name body, (Element.ofOpenTag pos name body).closedAt close stop⟩ ::
      (inside.placed openEnd ++ rest.placed stop)

def elements (pos : Nat) (f : Forest) : List Element := (f.placed pos).map Placed.element

@[simp] theorem text_nil : text nil = [] := rfl

@[simp] theorem text_leaf (mark : Nat) (token : Token) (rest : Forest) :
    (leaf mark token rest).text = token.lexeme ++ rest.text := rfl

@[simp] theorem text_element (name : List Char) (body : TagBody) (inside : Forest)
    (closing tail : List Char) (rest : Forest) :
    (element name body inside closing tail rest).text = (Token.openTag name body).lexeme ++
      (inside.text ++ ((Token.closeTag closing tail).lexeme ++ rest.text)) := by
  simp [text, tokens]

@[simp] theorem tokens_append (f g : Forest) : (f.append g).tokens = f.tokens ++ g.tokens := by
  induction f with
  | nil => rfl
  | leaf mark token rest ih => simp [append, tokens, ih]
  | element name body inside closing tail rest _ ih => simp [append, tokens, ih]

@[simp] theorem text_append (f g : Forest) : (f.append g).text = f.text ++ g.text := by
  simp [text]

theorem Sound.append {f g : Forest} (sound : f.Sound) (sound' : g.Sound) : (f.append g).Sound := by
  induction f with
  | nil => exact sound'
  | leaf mark token rest ih => exact ⟨sound.1, sound.2.1, ih sound.2.2⟩
  | element name body inside closing tail rest _ ih =>
    obtain ⟨opens, alone, closes, same, inner, later⟩ := sound
    exact ⟨opens, alone, closes, same, inner, ih later⟩

theorem placed_append (pos : Nat) (f g : Forest) :
    (f.append g).placed pos = f.placed pos ++ g.placed (pos + Text.size f.text) := by
  induction f generalizing pos with
  | nil => simp [append, placed]
  | leaf mark token rest ih => simp [append, placed, ih, Nat.add_assoc]
  | element name body inside closing tail rest _ ih => simp [append, placed, ih, Nat.add_assoc]

theorem Sound.tokens {f : Forest} (sound : f.Sound) : ∀ t ∈ f.tokens, t.Sound := by
  induction f with
  | nil => simp [Forest.tokens]
  | leaf mark token rest ih =>
    intro t mem
    rcases List.mem_cons.1 mem with rfl | later
    · exact sound.1
    · exact ih sound.2.2 t later
  | element name body inside closing tail rest inner_ih rest_ih =>
    obtain ⟨opens, -, closes, -, inner, later⟩ := sound
    intro t mem
    rcases List.mem_cons.1 mem with rfl | mem
    · exact opens
    · rcases List.mem_append.1 mem with mem | mem
      · exact inner_ih inner t mem
      · rcases List.mem_cons.1 mem with rfl | mem
        · exact closes
        · exact rest_ih later t mem

theorem Sound.ofText {f : Forest} (sound : f.Sound) : Token.ofText f.text = f.tokens := by
  have read := Token.ofText_lexemes sound.tokens []
  rwa [List.append_nil, Token.ofText, List.append_nil] at read

theorem size_pos {t : Token} (sound : t.Sound) : 0 < Text.size t.lexeme := by
  obtain ⟨c, cs, lexeme, -⟩ := sound.next
  have positive := Char.utf8Size_pos c
  rw [lexeme, Text.size_cons]
  omega

theorem mem_placed {f : Forest} {pos : Nat} {x : Placed} (mem : x ∈ f.placed pos) :
    x.token ∈ f.tokens ∧ x.Agrees := by
  induction f generalizing pos with
  | nil => cases mem
  | leaf mark token rest ih =>
    rcases List.mem_append.1 mem with mem | mem
    · obtain ⟨e, found, rfl⟩ := Option.map_eq_some_iff.1 (Option.mem_toList.1 mem)
      exact ⟨List.mem_cons_self, Token.element?_agrees found⟩
    · obtain ⟨known, agrees⟩ := ih mem
      exact ⟨List.mem_cons_of_mem token known, agrees⟩
  | element name body inside closing tail rest inner_ih rest_ih =>
    rcases List.mem_cons.1 mem with rfl | mem
    · exact ⟨List.mem_cons_self, rfl, Element.attr?_ofOpenTag pos name body,
        Element.isScriptOf_ofOpenTag pos name body⟩
    · rcases List.mem_append.1 mem with mem | mem
      · obtain ⟨known, agrees⟩ := inner_ih mem
        exact ⟨List.mem_cons_of_mem _ (List.mem_append_left _ known), agrees⟩
      · obtain ⟨known, agrees⟩ := rest_ih mem
        exact ⟨List.mem_cons_of_mem _ (List.mem_append_right _ (List.mem_cons_of_mem _ known)), agrees⟩

theorem placed_of_token {f : Forest} (pos : Nat) {t : Token} (mem : t ∈ f.tokens)
    (tagged : t.tag? ≠ none) : ∃ x ∈ f.placed pos, x.token = t := by
  induction f generalizing pos with
  | nil => cases mem
  | leaf mark token rest ih =>
    rcases List.mem_cons.1 mem with rfl | mem
    · have found : ∃ e, t.element? pos = some e := by
        cases t with
        | openTag | raw => exact ⟨_, rfl⟩
        | char | aside | closeTag | unfinished => exact absurd rfl tagged
      obtain ⟨e, found⟩ := found
      exact ⟨⟨mark, t, e⟩, List.mem_append_left _ (by simp [found]), rfl⟩
    · obtain ⟨x, known, same⟩ := ih (pos + Text.size token.lexeme) mem
      exact ⟨x, List.mem_append_right _ known, same⟩
  | element name body inside closing tail rest inner_ih rest_ih =>
    rcases List.mem_cons.1 mem with rfl | mem
    · exact ⟨_, List.mem_cons_self, rfl⟩
    rcases List.mem_append.1 mem with mem | mem
    · obtain ⟨x, known, same⟩ := inner_ih _ mem
      exact ⟨x, List.mem_cons_of_mem _ (List.mem_append_left _ known), same⟩
    rcases List.mem_cons.1 mem with rfl | mem
    · exact absurd rfl tagged
    · obtain ⟨x, known, same⟩ := rest_ih _ mem
      exact ⟨x, List.mem_cons_of_mem _ (List.mem_append_right _ known), same⟩

theorem placed_bounds {f : Forest} (sound : f.Sound) {pos : Nat} {x : Placed}
    (mem : x ∈ f.placed pos) : pos ≤ x.element.start ∧ x.element.start < x.element.stop ∧
      x.element.stop ≤ pos + Text.size f.text := by
  induction f generalizing pos with
  | nil => cases mem
  | leaf mark token rest ih =>
    rw [text_leaf, Text.size_append]
    rcases List.mem_append.1 mem with mem | mem
    · obtain ⟨e, found, rfl⟩ := Option.map_eq_some_iff.1 (Option.mem_toList.1 mem)
      have span := Token.element?_span found
      have some_ := size_pos sound.1
      simp only [Element.span, Span.mk.injEq] at span
      dsimp only
      omega
    · have later := ih sound.2.2 mem
      omega
  | element name body inside closing tail rest inner_ih rest_ih =>
    obtain ⟨opens, -, -, -, inner, later⟩ := sound
    rw [text_element, Text.size_append, Text.size_append, Text.size_append]
    rcases List.mem_cons.1 mem with rfl | mem
    · have some_ := size_pos opens
      simp only [Element.closedAt, Element.ofOpenTag]
      omega
    · rcases List.mem_append.1 mem with mem | mem
      · have inside_ := inner_ih inner mem
        omega
      · have rest_ := rest_ih later mem
        omega

end Forest

namespace Scan

theorem add_nil (s : Scan) : add [] s = s := by
  obtain ⟨pos, opened, finished⟩ := s
  cases opened <;> rfl

def past (elements : List Element) (size : Nat) (s : Scan) : Scan :=
  { add elements.reverse s with pos := s.pos + size }

theorem past_past (xs ys : List Element) (m n : Nat) (s : Scan) :
    past ys n (past xs m s) = past (xs ++ ys) (m + n) s := by
  obtain ⟨pos, opened, finished⟩ := s
  cases opened <;> simp [past, add, Nat.add_assoc]

@[simp] theorem past_pos (xs : List Element) (n : Nat) (s : Scan) : (past xs n s).pos = s.pos + n :=
  rfl

theorem past_later (xs : List Element) (m n pos : Nat) (opened : List OpenElement)
    (finished : List Element) :
    past xs n ⟨pos + m, opened, finished⟩ = past xs (m + n) ⟨pos, opened, finished⟩ := by
  cases opened <;> simp [past, add, Nat.add_assoc]

theorem past_opened (xs : List Element) (n pos : Nat) (o : OpenElement) (outer : List OpenElement)
    (finished : List Element) :
    past xs n ⟨pos, o :: outer, finished⟩ =
      ⟨pos + n, { o with inside := xs.reverse ++ o.inside } :: outer, finished⟩ := rfl

theorem past_nil (s : Scan) : past [] 0 s = s := by
  rw [past, List.reverse_nil, add_nil, Nat.add_zero]

theorem step_alone {t : Token} (alone : t.isAlone = true) (s : Scan) :
    s.step t = s.past (t.element? s.pos).toList (Text.size t.lexeme) := by
  cases t with
  | char | aside =>
    obtain ⟨pos, opened, finished⟩ := s
    cases opened <;> rfl
  | closeTag | unfinished => cases alone
  | openTag name body =>
    have tag : (body.selfClosing || decide ((Element.ofOpenTag s.pos name body).tag ∈ voidTags)) =
        true := alone
    simp only [step, act, tag, if_true, Token.element?]
    rfl
  | raw name body content closing => rfl

theorem step_openTag {name : List Char} {body : TagBody} (more : body.isAlone name = false)
    (s : Scan) : s.step (.openTag name body) =
      ⟨s.pos + Text.size (Token.openTag name body).lexeme,
        ⟨Element.ofOpenTag s.pos name body, []⟩ :: s.opened, s.finished⟩ := by
  have tag : (body.selfClosing || decide ((Element.ofOpenTag s.pos name body).tag ∈ voidTags)) =
      false := more
  simp [step, act, tag]

theorem step_closeTag {s : Scan} {o : OpenElement} {outer : List OpenElement}
    (opened : s.opened = o :: outer) {closing : List Char}
    (same : o.element.tag = Token.tagOf closing) (tail : List Char) :
    s.step (.closeTag closing tail) = Scan.past
      (o.element.closedAt s.pos (s.pos + Text.size (Token.closeTag closing tail).lexeme) ::
        o.inside.reverse)
      (Text.size (Token.closeTag closing tail).lexeme) { s with opened := outer } := by
  simp only [step, act, closeTag, opened, List.findIdx?_cons, same, beq_self_eq_true, if_true,
    closeMany, closeInnermost, past]
  simp

end Scan

namespace Forest

theorem foldl_step {f : Forest} (sound : f.Sound) (s : Scan) :
    f.tokens.foldl Scan.step s = s.past (f.elements s.pos) (Text.size f.text) := by
  induction f generalizing s with
  | nil => exact s.past_nil.symm
  | leaf mark token rest ih =>
    rw [tokens, List.foldl_cons, Scan.step_alone sound.2.1, ih sound.2.2, Scan.past_past,
      Scan.past_pos, text_leaf, Text.size_append]
    congr 1
    rw [elements, elements, placed, List.map_append]
    cases token.element? s.pos <;> rfl
  | element name body inside closing tail rest inner_ih rest_ih =>
    obtain ⟨-, alone, -, same, inner, later⟩ := sound
    rw [tokens, List.foldl_cons, List.foldl_append, List.foldl_cons, Scan.step_openTag alone,
      inner_ih inner, Scan.past_opened, Scan.step_closeTag rfl same.symm, rest_ih later,
      Scan.past_past, Scan.past_pos, text_element]
    obtain ⟨pos, opened, finished⟩ := s
    simp only [List.append_nil, List.reverse_reverse, Scan.past_later, Text.size_append]
    congr 1
    simp [elements, placed]

theorem scan_text {f : Forest} (sound : f.Sound) : scan (String.ofList f.text) = f.elements 0 := by
  rw [scan_ofList, sound.ofText, elementsOf, foldl_step sound]
  simp [Scan.finish, Scan.past, Scan.start, Scan.add, Scan.closeMany]

end Forest

/-- Tokens that close a stack of tags one after the other, with forests before each close tag and
at the end. -/
def Closes : List String → List Token → Prop
  | [], ts => ∃ f : Forest, f.Sound ∧ f.tokens = ts
  | top :: stack, ts => ∃ (f : Forest) (name tail : List Char) (rest : List Token),
      f.Sound ∧ (Token.closeTag name tail).Sound ∧ Token.tagOf name = top ∧
        f.tokens ++ .closeTag name tail :: rest = ts ∧ Closes stack rest

theorem Closes.leaf {stack : List String} {ts : List Token} (closes : Closes stack ts) {t : Token}
    (sound : t.Sound) (alone : t.isAlone = true) : Closes stack (t :: ts) := by
  cases stack with
  | nil =>
    obtain ⟨f, fine, rfl⟩ := closes
    exact ⟨.leaf 0 t f, ⟨sound, alone, fine⟩, rfl⟩
  | cons top stack =>
    obtain ⟨f, name, tail, rest, fine, closing, same, rfl, later⟩ := closes
    exact ⟨.leaf 0 t f, name, tail, rest, ⟨sound, alone, fine⟩, closing, same, rfl, later⟩

theorem Closes.open {stack : List String} {ts : List Token} {name : List Char} {body : TagBody}
    (closes : Closes (Token.tagOf name :: stack) ts) (sound : (Token.openTag name body).Sound)
    (more : body.isAlone name = false) : Closes stack (.openTag name body :: ts) := by
  obtain ⟨inside, closing, tail, rest, inner, ends, same, rfl, later⟩ := closes
  cases stack with
  | nil =>
    obtain ⟨f, fine, rfl⟩ := later
    exact ⟨.element name body inside closing tail f, ⟨sound, more, ends, same, inner, fine⟩, rfl⟩
  | cons top stack =>
    obtain ⟨f, name', tail', rest, fine, ends', same', rfl, later⟩ := later
    refine ⟨.element name body inside closing tail f, name', tail', rest,
      ⟨sound, more, ends, same, inner, fine⟩, ends', same', ?_, later⟩
    simp [Forest.tokens]

theorem Closes.close {stack : List String} {ts : List Token} {name tail : List Char}
    (closes : Closes stack ts) (sound : (Token.closeTag name tail).Sound) :
    Closes (Token.tagOf name :: stack) (.closeTag name tail :: ts) :=
  ⟨.nil, name, tail, ts, trivial, sound, rfl, rfl, closes⟩

theorem closes_of_nested {stack : List String} {ts : List Token} (sound : ∀ t ∈ ts, t.Sound)
    (nests : nested stack ts = true) : Closes stack ts := by
  induction ts generalizing stack with
  | nil =>
    rw [nested, List.isEmpty_iff] at nests
    rw [nests]
    exact ⟨.nil, trivial, rfl⟩
  | cons t ts ih =>
    have here := sound t List.mem_cons_self
    have later : ∀ u ∈ ts, u.Sound := fun u mem => sound u (List.mem_cons_of_mem t mem)
    cases t with
    | char c => exact (ih later nests).leaf here rfl
    | aside text => exact (ih later nests).leaf here rfl
    | raw name body content closing => exact (ih later nests).leaf here rfl
    | unfinished text => cases here
    | openTag name body =>
      rw [nested] at nests
      cases alone : body.isAlone name with
      | true =>
        rw [alone, if_pos rfl] at nests
        exact (ih later nests).leaf here alone
      | false =>
        rw [alone, if_neg Bool.false_ne_true] at nests
        exact (ih later nests).open here alone
    | closeTag name tail =>
      cases stack with
      | nil => cases nests
      | cons top stack =>
        rw [nested, Bool.and_eq_true, beq_iff_eq] at nests
        obtain ⟨rfl, nests⟩ := nests
        exact (ih later nests).close here

theorem WellFormed.forest {doc : String} (fine : WellFormed doc = true) :
    ∃ f : Forest, f.Sound ∧ f.text = doc.toList := by
  rw [WellFormed, Bool.and_eq_true, List.all_eq_true] at fine
  obtain ⟨f, sound, tokens⟩ :=
    closes_of_nested (fun t mem => Token.sound_of_mem mem (fine.1 t mem)) fine.2
  refine ⟨f, sound, ?_⟩
  rw [Forest.text, tokens, Token.ofText_lexeme]

theorem WellFormed.element {doc : String} (fine : WellFormed doc = true) {t : Token}
    (mem : t ∈ Token.ofText doc.toList) (tagged : t.tag? ≠ none) :
    ∃ e ∈ scan doc, Placed.Agrees ⟨0, t, e⟩ := by
  obtain ⟨f, sound, text⟩ := WellFormed.forest fine
  have whole : String.ofList f.text = doc := by rw [text, String.ofList_toList]
  rw [← text, sound.ofText] at mem
  obtain ⟨x, known, rfl⟩ := Forest.placed_of_token 0 mem tagged
  obtain ⟨tag, attr?, isScriptOf⟩ := (Forest.mem_placed known).2
  refine ⟨x.element, ?_, tag, attr?, isScriptOf⟩
  rw [← whole, Forest.scan_text sound]
  exact List.mem_map_of_mem known

end Playground.Html
