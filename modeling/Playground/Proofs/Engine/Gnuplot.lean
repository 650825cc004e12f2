import Playground.Engine.Gnuplot
import Playground.Graph.ArtifactCache
import Playground.Proofs.Base64
import Playground.Proofs.Html.Attributes

/-! The results of plots. -/

namespace Playground

namespace Path

/-- Whether the file name of a path ends in a dot and `ext`, with something before that dot. -/
def HasExtension (path : String) (ext : List Char) : Prop :=
  '.' ∉ ext ∧ ∃ stem, stem ≠ [] ∧ fileName? path = some (String.ofList (stem ++ '.' :: ext))

theorem extension?_eq_some_iff {path ext : String} :
    extension? path = some ext ↔ HasExtension path ext.toList := by
  constructor
  · intro read
    obtain ⟨name, file, read⟩ := Option.bind_eq_some_iff.1 read
    dsimp only at read
    split at read
    · next dot last stem cut =>
      have whole := List.takeWhile_append_dropWhile (p := (· != '.')) (l := name.toList.reverse)
      have first : (name.toList.reverse.dropWhile (· != '.')).head? = some dot := by
        rw [cut]
        rfl
      have dot_ : dot = '.' := by simpa using Text.head?_dropWhile first
      have clean : '.' ∉ name.toList.reverse.takeWhile (· != '.') := fun mem => by
        simpa using Text.mem_takeWhile mem
      rw [cut, dot_] at whole
      generalize name.toList.reverse.takeWhile (· != '.') = turned at read whole clean
      cases read
      rw [String.toList_ofList]
      refine ⟨fun mem => clean (List.mem_reverse.1 mem), (last :: stem).reverse, by simp, ?_⟩
      have spelt := congrArg List.reverse whole
      rw [List.reverse_reverse] at spelt
      rw [file, ← String.ofList_toList (s := name), ← spelt]
      simp
    · cases read
  · rintro ⟨clean, stem, some_, file⟩
    obtain ⟨last, rest, turned⟩ := List.exists_cons_of_ne_nil (mt List.reverse_eq_nil_iff.1 some_)
    have name : (String.ofList (stem ++ '.' :: ext.toList)).toList.reverse =
        ext.toList.reverse ++ '.' :: last :: rest := by
      rw [String.toList_ofList, List.reverse_append, List.reverse_cons, turned, List.append_assoc]
      rfl
    have all : ∀ c ∈ ext.toList.reverse, (c != '.') = true := fun c mem =>
      bne_iff_ne.2 fun same => clean (same ▸ List.mem_reverse.1 mem)
    have stops : ∀ c, ('.' :: last :: rest).head? = some c → (c != '.') = false := by
      rintro c ⟨⟩
      rfl
    simp only [extension?, file, Option.bind_eq_bind, Option.bind_some, name,
      Text.dropWhile_stop all stops, Text.takeWhile_stop all stops]
    rw [List.reverse_reverse, String.ofList_toList]

end Path

namespace Gnuplot

def IsOf (extensions : List String) (name : String) : Prop :=
  ∃ ext, Path.HasExtension name ext ∧ ∃ known ∈ extensions, Text.lower ext = Text.lower known.toList

theorem isOf_iff {extensions : List String} (lowered : ∀ known ∈ extensions, lowerAscii known = known)
    (name : String) : IsOf extensions name ↔
      ∃ known ∈ extensions, (Path.extension? name).map lowerAscii = some known := by
  have same : ∀ ext known, lowerAscii known = known →
      (lowerAscii ext = known ↔ Text.lower ext.toList = Text.lower known.toList) := by
    intro ext known lowered
    rw [← lowered, lowerAscii, lowerAscii, String.ofList_inj, String.toList_ofList, Html.lower_lower]
  constructor
  · rintro ⟨ext, has, known, mem, equal⟩
    have found := Path.extension?_eq_some_iff.2 ((String.toList_ofList (l := ext)).symm ▸ has)
    refine ⟨known, mem, ?_⟩
    rw [found, Option.map_some, (same _ known (lowered known mem)).2]
    rwa [String.toList_ofList]
  · rintro ⟨known, mem, found⟩
    obtain ⟨ext, has, equal⟩ := Option.map_eq_some_iff.1 found
    exact ⟨ext.toList, Path.extension?_eq_some_iff.1 has, known, mem,
      (same ext known (lowered known mem)).1 equal⟩

def mimeOf (extension : Option String) : String :=
  if extension = some "png" then "image/png"
  else if extension = some "jpg" ∨ extension = some "jpeg" then "image/jpeg"
  else if extension = some "gif" then "image/gif"
  else "image/svg+xml"

theorem svg_toDataUri (bytes : List UInt8) :
    (svg bytes).toDataUri = (dataUri "image/svg+xml" bytes).toDataUri := by
  unfold svg
  split
  · next text read =>
    have lead : "data:" ++ "image/svg+xml" ++ ";base64," = svgUriLead := by decide
    rw [textOf?_eq_some_iff.1 read, dataUri, Rendered.toDataUri, Rendered.toDataUri, lead]
  · rfl

theorem encodeOutput_toDataUri (name : String) (bytes : List UInt8) :
    (encodeOutput name bytes).toDataUri =
      (dataUri (mimeOf ((Path.extension? name).map lowerAscii)) bytes).toDataUri := by
  unfold encodeOutput
  split
  · next png => rw [png]; rfl
  · next jpg => rw [jpg]; rfl
  · next jpeg => rw [jpeg]; rfl
  · next gif => rw [gif]; rfl
  · next svg_ => rw [svg_]; exact svg_toDataUri bytes
  · next png jpg jpeg gif _ =>
    have other : mimeOf ((Path.extension? name).map lowerAscii) = "image/svg+xml" := by
      rw [mimeOf, if_neg png, if_neg (not_or.2 ⟨jpg, jpeg⟩), if_neg gif]
    rw [other]
    split
    · exact svg_toDataUri bytes
    · rfl

/-- The bytes of a plot are never altered: the URI of a result names a type and holds the bytes in
base64. The type is the one of PNG, JPEG or GIF images just when the name has an extension of those,
and the one of SVG images otherwise. -/
theorem encodeOutput_kept (name : String) (bytes : List UInt8) :
    ∃ mime payload,
      (encodeOutput name bytes).toDataUri = "data:" ++ mime ++ ";base64," ++ String.ofList payload ∧
      Base64.decode? payload = some bytes ∧
      (mime = "image/png" ↔ IsOf ["png"] name) ∧
      (mime = "image/jpeg" ↔ IsOf ["jpg", "jpeg"] name) ∧
      (mime = "image/gif" ↔ IsOf ["gif"] name) ∧
      (mime = "image/svg+xml" ↔ ¬ IsOf ["png", "jpg", "jpeg", "gif"] name) := by
  refine ⟨_, _, encodeOutput_toDataUri name bytes, Base64.decode?_encode bytes, ?_⟩
  rw [isOf_iff (by decide), isOf_iff (by decide), isOf_iff (by decide), isOf_iff (by decide)]
  generalize (Path.extension? name).map lowerAscii = ext
  unfold mimeOf
  split
  · next png => simp [png]
  · next png =>
    split
    · next jpeg => rcases jpeg with rfl | rfl <;> simp
    · next jpeg =>
      split
      · next gif => simp [gif]
      · next gif =>
        rw [not_or] at jpeg
        simp [png, jpeg, gif]

end Gnuplot

end Playground
