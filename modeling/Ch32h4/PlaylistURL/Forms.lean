import Ch32h4.PlaylistURL.First

/-!
# Playlists

What a playlist says, apart from how it is read.  It is a list of lines, and a line is an address
alone, an entry `FileN=` or `RefN=` of an ini file, an element with `href` attributes, a comment, or
text that names no stream.  Letter case is free, and so are the spaces around a line and around an
equals sign.  A line ends with any mixture of line feeds and carriage returns, or where an element
is followed by the next one immediately.

`firstEntry` is what the first entry of a playlist means: the first one that is an http or https
address and not the one to be left out.
-/

namespace Ch32h4.PlaylistURL

open Ota (isSpace)

/-! ### Text -/

/-- A space that ends no line. -/
def isBlank (c : UInt8) : Bool := isSpace c && !isEol c

def Blank (t : List UInt8) : Prop := ∀ c ∈ t, isBlank c = true

instance (t : List UInt8) : Decidable (Blank t) := inferInstanceAs (Decidable (∀ c ∈ t, _))

/-- Text of one line: it holds no line end, no zero and no two elements that touch. -/
structure OneLine (t : List UInt8) : Prop where
  bytes : ∀ c ∈ t, isEol c = false ∧ c ≠ 0
  apart : t.IsChain fun c d => ¬(c = 62 ∧ d = 60)

/-- Text without spaces at its ends. -/
structure Tight (t : List UInt8) : Prop where
  head : ∀ c ∈ t.head?, isSpace c = false
  last : ∀ c ∈ t.getLast?, isSpace c = false

instance (t : List UInt8) : Decidable (OneLine t) :=
  @decidable_of_iff _
    ((∀ c ∈ t, isEol c = false ∧ c ≠ 0) ∧ t.IsChain fun c d => ¬(c = 62 ∧ d = 60))
    ⟨fun h => ⟨h.1, h.2⟩, fun h => ⟨h.bytes, h.apart⟩⟩
    (@instDecidableAnd _ _ (List.decidableBAll _ t) inferInstance)

instance (t : List UInt8) : Decidable (Tight t) :=
  @decidable_of_iff _ ((∀ c ∈ t.head?, isSpace c = false) ∧ ∀ c ∈ t.getLast?, isSpace c = false)
    ⟨fun h => ⟨h.1, h.2⟩, fun h => ⟨h.head, h.last⟩⟩
    (@instDecidableAnd _ _ (@Option.decidableForallMem _ _ (fun _ => inferInstance) _)
      (@Option.decidableForallMem _ _ (fun _ => inferInstance) _))

/-- The word `href` in any case. -/
def HasHref (t : List UInt8) : Prop := href <:+: t.map tolower

instance (t : List UInt8) : Decidable (HasHref t) := inferInstanceAs (Decidable (_ <:+: _))

/-- An http or https address in any case. -/
def isHttp (u : List UInt8) : Bool := isHttpUrl (u.map tolower)

/-- Text that starts like none of the forms below. -/
def Inert (t : List UInt8) : Prop :=
  t.head? ≠ some 35 ∧ isHttp t = false ∧ ¬ file <+: t.map tolower ∧ ¬ ref <+: t.map tolower

instance (t : List UInt8) : Decidable (Inert t) :=
  inferInstanceAs (Decidable (_ ∧ _ ∧ _ ∧ _))

/-- `FileN` or `RefN` in any case. -/
def IsKey (key : List UInt8) : Prop :=
  ∃ stem ∈ [file, ref], stem <+: key.map tolower ∧ stem.length < key.length ∧
    ∀ c ∈ key.drop stem.length, 48 ≤ c ∧ c ≤ 57

instance (key : List UInt8) : Decidable (IsKey key) :=
  inferInstanceAs (Decidable (∃ stem ∈ [file, ref], _))

/-- Text with an `href` attribute in it. -/
def Attributed (t : List UInt8) : Prop :=
  ∃ lead word before after quote rest, t = lead ++ word ++ (before ++ 61 :: after ++ quote :: rest) ∧
    word.map tolower = href ∧ Blank before ∧ Blank after ∧ isQuote quote = true

/-- An address: neither spaces nor brackets nor double quotes. -/
structure Url where
  text : List UInt8
  clean : ∀ c ∈ text, isSpace c = false ∧ c ≠ 0 ∧ c ≠ 34 ∧ c ≠ 60 ∧ c ≠ 62

/-! ### Lines -/

/-- An `href` attribute, with what comes before it. -/
structure Attribute where
  lead : List UInt8
  word : List UInt8
  before : List UInt8
  after : List UInt8
  quote : UInt8
  url : Url

/-- Up to the opening quote. -/
def Attribute.opening (a : Attribute) : List UInt8 :=
  a.lead ++ a.word ++ (a.before ++ 61 :: a.after ++ [a.quote])

def Attribute.text (a : Attribute) : List UInt8 := a.opening ++ a.url.text ++ [a.quote]

structure Attribute.WellFormed (a : Attribute) : Prop where
  lead : ¬ HasHref a.lead
  word : a.word.map tolower = href
  before : Blank a.before
  after : Blank a.after
  quote : isQuote a.quote = true
  url : a.quote ∉ a.url.text

inductive Line where
  | comment (text : List UInt8)
  /-- A section, a key of another name, an element without an address, nothing. -/
  | other (text : List UInt8)
  | bare (url : Url)
  | keyed (key before after : List UInt8) (url : Url)
  | element (attr : Attribute) (more : List Attribute) (tail : List UInt8)

namespace Line

def text : Line → List UInt8
  | comment text => 35 :: text
  | other text => text
  | bare url => url.text
  | keyed key before after url => key ++ (before ++ 61 :: after) ++ url.text
  | element attr more tail => attr.text ++ (more.flatMap Attribute.text ++ tail)

/-- The addresses that a line names. -/
def entries : Line → List (List UInt8)
  | comment _ | other _ => []
  | bare url | keyed _ _ _ url => [url.text]
  | element attr more _ => attr.url.text :: more.map fun a => a.url.text

/-- What makes a line one of its form. -/
def Formed : Line → Prop
  | comment _ => True
  | other text => Inert text ∧ ¬ Attributed text
  | bare url => isHttp url.text = true
  | keyed key before after _ => IsKey key ∧ Blank before ∧ Blank after
  | element attr more tail =>
    Inert (attr.text ++ (more.flatMap Attribute.text ++ tail)) ∧ attr.WellFormed ∧
      (∀ a ∈ more, a.WellFormed) ∧ ¬ HasHref tail

structure WellFormed (l : Line) : Prop where
  formed : l.Formed
  oneLine : OneLine l.text
  tight : Tight l.text

end Line

/-! ### Playlists -/

/-- How a line ends. -/
inductive Stop where
  | eol (ends : List UInt8)
  /-- The bracket of an element, with that of the next one behind it. -/
  | abut

def Stop.text : Stop → List UInt8
  | eol ends => ends
  | abut => [62]

structure Item where
  left : List UInt8
  line : Line
  right : List UInt8
  stop : Stop

def Item.raw (i : Item) : List UInt8 := i.left ++ i.line.text ++ i.right

/-- The body of a response. -/
def render (items : List Item) : List UInt8 := items.flatMap fun i => i.raw ++ i.stop.text

/-- A line may end like this before that rest of the body. -/
def Stop.Before (rest : List UInt8) : Stop → Prop
  | eol ends => (∀ c ∈ ends, isEol c = true) ∧ (ends = [] → rest = [])
  | abut => rest.head? = some 60

structure Item.WellFormed (i : Item) (rest : List UInt8) : Prop where
  left : Blank i.left
  right : Blank i.right
  line : i.line.WellFormed
  stop : i.stop.Before rest

def Items : List Item → Prop
  | [] => True
  | i :: items => i.WellFormed (render items) ∧ Items items

/-- A playlist in the supported forms. -/
structure Playlist where
  items : List Item
  wellFormed : Items items

def Playlist.body (p : Playlist) : List UInt8 := render p.items

def Playlist.entries (p : Playlist) : List (List UInt8) := p.items.flatMap fun i => i.line.entries

end Ch32h4.PlaylistURL
