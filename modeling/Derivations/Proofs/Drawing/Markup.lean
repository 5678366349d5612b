import Derivations.Drawing.Svg
import Derivations.Proofs.Grammar.File.Tokens

/-!
# Reading Markup

What a program that shows a drawing makes of its text. A tag extends from an opening bracket
to the next closing one, whatever stands in between, and the rest of the text is content. The
reader knows nothing about drawings, and in particular not which bytes come from a symbol. It
is by reading that one finds out whether a symbol has become markup.

Tags are sorted by their slashes into those which open an element, those which close one, and
those which are an element by themselves. They are well nested if every closing tag has the
name of the last one still open and none is left open in the end. The content of an element is
what stands in front of the next tag, which closes the element if it holds nothing else.

Escaping replaces every byte that the reader gives a meaning to, so that an escaped text is
content and nothing else, and undoing it gets the text back.

## Main definitions

* `Markup.read`: The tags of a text and the bytes between them.
* `Markup.tags`, `Markup.wellNested`: The tags, and whether they are well nested.
* `Markup.elements`: The elements of a name, with their content.
* `Markup.attributes`: The attributes in a tag.
* `Markup.unescape`: Takes entities for the bytes they stand for.
* `Markup.tagged`: A tag with a name and attributes.

## Theorems

* `Markup.read_tag`, `Markup.read_append`: A tag is read as a tag, and what comes in front of the
  first bracket as content.
* `Markup.isPlain_escaped`, `Markup.unescape_escaped`: An escaped text is plain, and can be had
  back.
* `Markup.attributes_tagged`: The attributes of a tag are those with which it has been made.
-/

namespace Derivations

namespace Markup

/-- What markup consists of. -/
inductive Piece where
  /-- A tag, without its brackets. -/
  | tag (body : Text)
  /-- A byte that belongs to no tag. -/
  | byte (b : UInt8)
deriving DecidableEq, Repr

/-- Reads markup, possibly within a tag of which a part has been read. A bracket that no other
    bracket follows does not begin a tag. -/
def readFrom : Option Text → Text → List Piece
  | none, [] => []
  | some begun, [] => ('<'.toUInt8 :: begun).map .byte
  | none, b :: rest =>
    if b = '<'.toUInt8 then readFrom (some []) rest else .byte b :: readFrom none rest
  | some begun, b :: rest =>
    if b = '>'.toUInt8 then .tag begun :: readFrom none rest
    else readFrom (some (begun ++ [b])) rest

/-- Reads markup. -/
def read (t : Text) : List Piece :=
  readFrom none t

/-- The tags, in the order in which they stand. -/
def tags : List Piece → List Text
  | [] => []
  | .tag body :: rest => body :: tags rest
  | .byte _ :: rest => tags rest

/-- What a tag does. -/
inductive Kind where
  | opening
  | closing
  /-- The tag is an element by itself. -/
  | empty
deriving DecidableEq, Repr

/-- What a tag does, as its slash tells. -/
def kind (body : Text) : Kind :=
  if body.head? = some '/'.toUInt8 then .closing
  else if body.getLast? = some '/'.toUInt8 then .empty
  else .opening

/-- The name of the element to which a tag belongs. -/
def name (body : Text) : Text :=
  (body.dropWhile (· == '/'.toUInt8)).takeWhile fun b => b != ' '.toUInt8 && b != '/'.toUInt8

/-- Whether tags are well nested within elements that have been opened, the last of them first,
    and close all of these. -/
def nestedIn : List Text → List Text → Bool
  | pending, [] => pending.isEmpty
  | pending, body :: rest =>
    match kind body with
    | .opening => nestedIn (name body :: pending) rest
    | .empty => nestedIn pending rest
    | .closing =>
      match pending with
      | [] => false
      | last :: others => decide (name body = last) && nestedIn others rest

/-- Whether tags are well nested. -/
def wellNested (bodies : List Text) : Bool :=
  nestedIn [] bodies

/-- The content in front of the next tag. -/
def content : List Piece → Text
  | .byte b :: rest => b :: content rest
  | _ => []

/-- The next tag. -/
def nextTag? : List Piece → Option Text
  | [] => none
  | .tag body :: _ => some body
  | .byte _ :: rest => nextTag? rest

/-- The tag that closes an element of a given name. -/
def closingTag (label : Text) : Text :=
  "/" ++ label

/-- An element: the tag that opens it, its content, and the tag behind the content. -/
structure Element where
  tag : Text
  content : Text
  next? : Option Text
deriving DecidableEq, Repr

/-- The elements of a given name. -/
def elements (sought : Text) : List Piece → List Element
  | [] => []
  | .byte _ :: rest => elements sought rest
  | .tag body :: rest =>
    if kind body = .opening ∧ name body = sought then
      ⟨body, content rest, nextTag? rest⟩ :: elements sought rest
    else
      elements sought rest

/-- Texts taken two at a time. -/
def pairs : List Text → List (Text × Text)
  | a :: b :: rest => (a, b) :: pairs rest
  | _ => []

/-- The name of an attribute, given what stands in front of its value. -/
def attributeName (before : Text) : Text :=
  (before.dropWhile (· == ' '.toUInt8)).takeWhile (· != '='.toUInt8)

/-- The attributes in a tag, names and values. The values stand in quotes. -/
def attributes (body : Text) : List (Text × Text) :=
  (pairs (Text.splitAt '"'.toUInt8 (body.dropWhile (· != ' '.toUInt8)))).map fun p =>
    (attributeName p.1, p.2)

/-- The value of an attribute. -/
def attribute? (sought body : Text) : Option Text :=
  (attributes body).lookup sought

/-- The bytes for which entities may stand. -/
def escapable : List UInt8 :=
  ['&'.toUInt8, '\''.toUInt8, '<'.toUInt8, '>'.toUInt8, '"'.toUInt8]

/-- The entity that stands for a byte, or the byte itself. -/
def entity (b : UInt8) : Text :=
  (Escape.entity? b).getD [b]

/-- Takes entities for the bytes they stand for. What is left of an entity is passed over. -/
def unescapeFrom : Nat → Text → Text
  | _, [] => []
  | left + 1, _ :: rest => unescapeFrom left rest
  | 0, b :: rest =>
    match escapable.find? fun c => (entity c).isPrefixOf (b :: rest) with
    | some c => c :: unescapeFrom ((entity c).length - 1) rest
    | none => b :: unescapeFrom 0 rest

/-- Takes entities for the bytes they stand for. -/
def unescape (t : Text) : Text :=
  unescapeFrom 0 t

/-- A tag with a name and attributes. -/
def tagged (label : Text) (given : List (Text × Text)) : Text :=
  label ++ given.flatMap fun p => Svg.property p.1 p.2

/-- What stands in front of the value of an attribute. -/
def before (label : Text) : Text :=
  " " ++ label ++ "="

/-- Whether a text consists of bytes to which the reader gives no meaning between tags or
    within quotes. -/
def isPlain (t : Text) : Bool :=
  t.all fun b => b != '<'.toUInt8 && b != '>'.toUInt8 && b != '"'.toUInt8

/-- Whether a text may be the name of an element or of an attribute. -/
def isName (t : Text) : Bool :=
  !t.isEmpty && isPlain t &&
    t.all fun b => b != ' '.toUInt8 && b != '='.toUInt8 && b != '/'.toUInt8

/-- Attributes with names that may be names, and with plain values. -/
def Proper (given : List (Text × Text)) : Prop :=
  ∀ p ∈ given, isName p.1 = true ∧ isPlain p.2 = true

section Reading

theorem readFrom_tag (begun body rest : Text) (h : ∀ b ∈ body, b ≠ '>'.toUInt8) :
    readFrom (some begun) (body ++ '>'.toUInt8 :: rest) = .tag (begun ++ body) :: read rest := by
  induction body generalizing begun with
  | nil => rw [List.nil_append, readFrom, if_pos rfl, List.append_nil, read]
  | cons b body ih =>
    rw [List.cons_append, readFrom, if_neg (h b List.mem_cons_self),
      ih (begun ++ [b]) fun c hc => h c (List.mem_cons_of_mem b hc), List.append_assoc]
    rfl

/-- What stands between brackets is a tag. -/
theorem read_tag (body rest : Text) (h : ∀ b ∈ body, b ≠ '>'.toUInt8) :
    read ('<'.toUInt8 :: (body ++ '>'.toUInt8 :: rest)) = .tag body :: read rest := by
  rw [read, readFrom, if_pos rfl, readFrom_tag [] body rest h, List.nil_append]

/-- What stands in front of the first bracket is content. -/
theorem read_append (t rest : Text) (h : ∀ b ∈ t, b ≠ '<'.toUInt8) :
    read (t ++ rest) = t.map .byte ++ read rest := by
  induction t with
  | nil => rfl
  | cons b t ih =>
    rw [List.cons_append, read, readFrom, if_neg (h b List.mem_cons_self), ← read,
      ih fun c hc => h c (List.mem_cons_of_mem b hc)]
    rfl

theorem tags_append (ps qs : List Piece) : tags (ps ++ qs) = tags ps ++ tags qs := by
  induction ps with
  | nil => rfl
  | cons p ps ih =>
    cases p with
    | tag body => rw [List.cons_append, tags, tags, ih, List.cons_append]
    | byte b => rw [List.cons_append, tags, tags, ih]

theorem tags_map_byte (t : Text) : tags (t.map .byte) = [] := by
  induction t with
  | nil => rfl
  | cons b t ih => rw [List.map_cons, tags, ih]

theorem content_append (t body : Text) (rest : List Piece) :
    content (t.map .byte ++ .tag body :: rest) = t := by
  induction t with
  | nil => rfl
  | cons b t ih => rw [List.map_cons, List.cons_append, content, ih]

theorem nextTag?_append (t body : Text) (rest : List Piece) :
    nextTag? (t.map .byte ++ .tag body :: rest) = some body := by
  induction t with
  | nil => rfl
  | cons b t ih => rw [List.map_cons, List.cons_append, nextTag?, ih]

theorem elements_map_byte (sought t : Text) (rest : List Piece) :
    elements sought (t.map .byte ++ rest) = elements sought rest := by
  induction t with
  | nil => rfl
  | cons b t ih => rw [List.map_cons, List.cons_append, elements, ih]

end Reading

section Escaping

theorem escaped_cons (b : UInt8) (s : Text) :
    Escape.markup (b :: s) = entity b ++ Escape.markup s :=
  rfl

theorem entity_of_notMem {b : UInt8} (h : b ∉ escapable) : entity b = [b] := by
  simp only [escapable, List.mem_cons, List.not_mem_nil, or_false, not_or] at h
  rcases h with ⟨hamp, hquote, hless, hgreater, hquotes⟩
  rw [entity, Escape.entity?, if_neg hamp, if_neg hquote, if_neg hless, if_neg hgreater,
    if_neg hquotes, Option.getD_none]

theorem isPlain_entity (b : UInt8) : isPlain (entity b) = true := by
  by_cases h : b ∈ escapable
  · simp only [escapable, List.mem_cons, List.not_mem_nil, or_false] at h
    rcases h with rfl | rfl | rfl | rfl | rfl <;> rfl
  · rw [entity_of_notMem h]
    simp only [escapable, List.mem_cons, List.not_mem_nil, or_false, not_or] at h
    simp [isPlain, h]

/-- Whatever is escaped is plain. -/
theorem isPlain_escaped (s : Text) : isPlain (Escape.markup s) = true := by
  induction s with
  | nil => rfl
  | cons b s ih =>
    rw [escaped_cons, isPlain, List.all_append, ← isPlain, ← isPlain, isPlain_entity, ih,
      Bool.and_self]

theorem unescapeFrom_append (t rest : Text) :
    unescapeFrom t.length (t ++ rest) = unescape rest := by
  induction t with
  | nil => rfl
  | cons b t ih => rw [List.length_cons, List.cons_append, unescapeFrom, ih]

theorem exists_entity_eq_cons {b : UInt8} (h : b ∈ escapable) :
    ∃ more, entity b = '&'.toUInt8 :: more := by
  simp only [escapable, List.mem_cons, List.not_mem_nil, or_false] at h
  rcases h with rfl | rfl | rfl | rfl | rfl <;> exact ⟨_, rfl⟩

-- No entity begins with another.
theorem find?_entity {b : UInt8} (h : b ∈ escapable) (rest : Text) :
    escapable.find? (fun c => (entity c).isPrefixOf (entity b ++ rest)) = some b := by
  simp only [escapable, List.mem_cons, List.not_mem_nil, or_false] at h
  rcases h with rfl | rfl | rfl | rfl | rfl <;> rfl

theorem find?_of_notMem {b : UInt8} (h : b ∉ escapable) (rest : Text) :
    escapable.find? (fun c => (entity c).isPrefixOf (b :: rest)) = none := by
  have hamp : ('&'.toUInt8 == b) = false := by
    rw [beq_eq_false_iff_ne]
    rintro rfl
    exact h List.mem_cons_self
  rw [List.find?_eq_none]
  intro c hc hpre
  rcases exists_entity_eq_cons hc with ⟨more, hmore⟩
  rw [hmore, List.isPrefixOf, hamp, Bool.false_and] at hpre
  exact Bool.false_ne_true hpre

/-- What has been escaped can be had back. -/
theorem unescape_escaped (s : Text) : unescape (Escape.markup s) = s := by
  induction s with
  | nil => rfl
  | cons b s ih =>
    rw [escaped_cons]
    by_cases h : b ∈ escapable
    -- The entity is recognized by its first byte, and the rest of it is passed over.
    · have hfind := find?_entity h (Escape.markup s)
      rcases exists_entity_eq_cons h with ⟨more, hmore⟩
      rw [hmore, List.cons_append] at hfind ⊢
      rw [unescape, unescapeFrom, hfind]
      simp only [hmore, List.length_cons, Nat.add_sub_cancel]
      rw [unescapeFrom_append, ih]
    · rw [entity_of_notMem h, List.singleton_append, unescape, unescapeFrom,
        find?_of_notMem h, ← unescape, ih]

end Escaping

section Tags

variable {label : Text} {given : List (Text × Text)}

theorem ne_of_isPlain {t : Text} (h : isPlain t = true) :
    ∀ b ∈ t, b ≠ '<'.toUInt8 ∧ b ≠ '>'.toUInt8 ∧ b ≠ '"'.toUInt8 := by
  intro b hb
  have hbyte := List.all_eq_true.1 h b hb
  simp only [Bool.and_eq_true, bne_iff_ne] at hbyte
  exact ⟨hbyte.1.1, hbyte.1.2, hbyte.2⟩

theorem isPlain_of_isName {t : Text} (h : isName t = true) : isPlain t = true := by
  rw [isName, Bool.and_eq_true, Bool.and_eq_true] at h
  exact h.1.2

theorem ne_of_isName {t : Text} (h : isName t = true) :
    t ≠ [] ∧ ∀ b ∈ t, b ≠ ' '.toUInt8 ∧ b ≠ '='.toUInt8 ∧ b ≠ '/'.toUInt8 := by
  rw [isName, Bool.and_eq_true, Bool.and_eq_true] at h
  refine ⟨by simpa using h.1.1, fun b hb => ?_⟩
  have hbyte := List.all_eq_true.1 h.2 b hb
  simp only [Bool.and_eq_true, bne_iff_ne] at hbyte
  exact ⟨hbyte.1.1, hbyte.1.2, hbyte.2⟩

theorem proper_nil : Proper [] :=
  fun _ h => absurd h List.not_mem_nil

theorem proper_cons {key value : Text} (hname : isName key = true)
    (hvalue : isPlain value = true) (hgiven : Proper given) :
    Proper ((key, value) :: given) := by
  intro p hp
  rcases List.mem_cons.1 hp with rfl | hp
  · exact ⟨hname, hvalue⟩
  · exact hgiven p hp

/-- Numbers are plain. -/
theorem isPlain_decimal (n : Nat) : isPlain (Text.decimal n) = true := by
  rw [isPlain, List.all_eq_true]
  intro b hb
  rcases List.mem_map.1 hb with ⟨c, hc, rfl⟩
  have hdigit := Nat.isDigit_of_mem_toDigits (by decide) (by decide) hc
  rw [Char.isDigit, Bool.and_eq_true, decide_eq_true_eq, decide_eq_true_eq] at hdigit
  have hlow : 48 ≤ c.val.toNat := hdigit.1
  have hhigh : c.val.toNat ≤ 57 := hdigit.2
  have hbyte : c.toUInt8.toNat = c.val.toNat := by
    rw [Char.toUInt8, UInt32.toNat_toUInt8]
    omega
  have hne (m : UInt8) (hm : 57 < m.toNat ∨ m.toNat < 48) : c.toUInt8 ≠ m := by
    rintro rfl
    omega
  simp [hne '<'.toUInt8 (by decide), hne '>'.toUInt8 (by decide), hne '"'.toUInt8 (by decide)]

/-- There is no closing bracket within a tag. -/
theorem ne_of_mem_tagged (hlabel : isName label = true) (hgiven : Proper given) :
    ∀ b ∈ tagged label given, b ≠ '>'.toUInt8 := by
  intro b hb
  rcases List.mem_append.1 hb with hb | hb
  · exact (ne_of_isPlain (isPlain_of_isName hlabel) b hb).2.1
  · rcases List.mem_flatMap.1 hb with ⟨p, hp, hb⟩
    rcases hgiven p hp with ⟨hname, hvalue⟩
    simp only [Svg.property, List.mem_append] at hb
    rcases hb with (((hb | hb) | hb) | hb) | hb
    · exact ne_of_mem_of_not_mem hb (by decide)
    · exact (ne_of_isPlain (isPlain_of_isName hname) b hb).2.1
    · exact ne_of_mem_of_not_mem hb (by decide)
    · exact (ne_of_isPlain hvalue b hb).2.1
    · exact ne_of_mem_of_not_mem hb (by decide)

-- A name extends as far as the first blank or slash.
theorem name_append (hlabel : isName label = true) {t : Text}
    (ht : ∀ b ∈ t.head?, b = ' '.toUInt8 ∨ b = '/'.toUInt8) : name (label ++ t) = label := by
  rcases ne_of_isName hlabel with ⟨hne, hbytes⟩
  have hdrop : (label ++ t).dropWhile (· == '/'.toUInt8) = label ++ t := by
    cases label with
    | nil => exact absurd rfl hne
    | cons b label =>
      rw [List.cons_append, List.dropWhile_cons_of_neg]
      simpa using (hbytes b List.mem_cons_self).2.2
  have htake : t.takeWhile (fun b => b != ' '.toUInt8 && b != '/'.toUInt8) = [] := by
    cases t with
    | nil => rfl
    | cons b t =>
      rw [List.takeWhile_cons_of_neg]
      rcases ht b rfl with rfl | rfl <;> decide
  rw [name, hdrop, List.takeWhile_append_of_pos fun b hb => by simp [hbytes b hb], htake,
    List.append_nil]

theorem head?_flatMap_property (given : List (Text × Text)) :
    ∀ b ∈ (given.flatMap fun p => Svg.property p.1 p.2).head?,
      b = ' '.toUInt8 ∨ b = '/'.toUInt8 := by
  cases given with
  | nil => simp
  | cons p given =>
    rintro b ⟨⟩
    exact .inl rfl

theorem name_tagged (hlabel : isName label = true) : name (tagged label given) = label :=
  name_append hlabel (head?_flatMap_property given)

theorem name_tagged_slash (hlabel : isName label = true) :
    name (tagged label given ++ "/") = label := by
  rw [tagged, List.append_assoc]
  refine name_append hlabel fun b hb => ?_
  cases given with
  | nil =>
    rcases hb with ⟨⟩
    exact .inr rfl
  | cons p given =>
    rcases hb with ⟨⟩
    exact .inl rfl

theorem name_closingTag (hlabel : isName label = true) : name (closingTag label) = label := by
  have hname := name_append (t := []) hlabel (by simp)
  rw [List.append_nil] at hname
  exact hname

theorem head?_ne_slash (hlabel : isName label = true) (t : Text) :
    (label ++ t).head? ≠ some '/'.toUInt8 := by
  rcases ne_of_isName hlabel with ⟨hne, hbytes⟩
  cases label with
  | nil => exact absurd rfl hne
  | cons b label =>
    rintro ⟨⟩
    exact (hbytes _ List.mem_cons_self).2.2 rfl

theorem kind_tagged (hlabel : isName label = true) : kind (tagged label given) = .opening := by
  -- The last byte belongs to the name, or it is the quote behind the last value.
  have hlast : (tagged label given).getLast? ≠ some '/'.toUInt8 := by
    rcases List.eq_nil_or_concat given with rfl | ⟨others, last, rfl⟩
    · rw [tagged, List.flatMap_nil, List.append_nil]
      intro h
      exact ((ne_of_isName hlabel).2 _ (List.mem_of_getLast? h)).2.2 rfl
    · have hquote : tagged label (others.concat last) =
          label ++ others.flatMap (fun p => Svg.property p.1 p.2) ++
            (" " ++ last.1 ++ "=\"" ++ last.2) ++ ['"'.toUInt8] := by
        simp [tagged, Svg.property]
        rfl
      rw [hquote, List.getLast?_concat]
      decide
  rw [kind, if_neg hlast, if_neg]
  exact head?_ne_slash hlabel _

theorem kind_tagged_slash (hlabel : isName label = true) :
    kind (tagged label given ++ "/") = .empty := by
  have hlast : (tagged label given ++ "/").getLast? = some '/'.toUInt8 :=
    List.getLast?_concat
  rw [kind, if_pos hlast, if_neg]
  rw [tagged, List.append_assoc]
  exact head?_ne_slash hlabel _

theorem kind_closingTag (label : Text) : kind (closingTag label) = .closing :=
  rfl

/-- A tag with a name opens an element of that name. -/
theorem nestedIn_tagged (hlabel : isName label = true) (pending rest : List Text) :
    nestedIn pending (tagged label given :: rest) = nestedIn (label :: pending) rest := by
  simp only [nestedIn, kind_tagged hlabel, name_tagged hlabel]

theorem nestedIn_tagged_slash (hlabel : isName label = true) (pending rest : List Text) :
    nestedIn pending ((tagged label given ++ "/") :: rest) = nestedIn pending rest := by
  simp only [nestedIn, kind_tagged_slash hlabel]

theorem nestedIn_closingTag (hlabel : isName label = true) (pending rest : List Text) :
    nestedIn (label :: pending) (closingTag label :: rest) = nestedIn pending rest := by
  simp only [nestedIn, kind_closingTag, name_closingTag hlabel, decide_true, Bool.true_and]

/-- What stands between the tags of an element is its content. -/
theorem elements_tagged (hlabel : isName label = true) (t : Text) (rest : List Piece) :
    elements label (.tag (tagged label given) :: (t.map .byte ++ .tag (closingTag label) :: rest)) =
      ⟨tagged label given, t, some (closingTag label)⟩ :: elements label rest := by
  rw [elements, if_pos ⟨kind_tagged hlabel, name_tagged hlabel⟩, nextTag?_append,
    content_append, elements_map_byte, elements, if_neg]
  rw [kind_closingTag]
  exact fun h => Kind.noConfusion h.1

theorem elements_cons_of_ne {sought body : Text} (h : name body ≠ sought) (rest : List Piece) :
    elements sought (.tag body :: rest) = elements sought rest := by
  rw [elements, if_neg fun hbody => h hbody.2]

-- A name and a value for every attribute, and nothing behind the last.
theorem pairs_splitAt (hgiven : Proper given) :
    pairs (Text.splitAt '"'.toUInt8 (given.flatMap fun p => Svg.property p.1 p.2)) =
      given.map fun p => (before p.1, p.2) := by
  induction given with
  | nil => rfl
  | cons p given ih =>
    rcases hgiven p List.mem_cons_self with ⟨hname, hvalue⟩
    have hbefore : ∀ b ∈ before p.1, b ≠ '"'.toUInt8 := by
      intro b hb
      simp only [before, List.mem_append] at hb
      rcases hb with (hb | hb) | hb
      · exact ne_of_mem_of_not_mem hb (by decide)
      · exact (ne_of_isPlain (isPlain_of_isName hname) b hb).2.2
      · exact ne_of_mem_of_not_mem hb (by decide)
    have hprop : (p :: given).flatMap (fun p => Svg.property p.1 p.2) =
        before p.1 ++ '"'.toUInt8 :: (p.2 ++ '"'.toUInt8 ::
          given.flatMap fun p => Svg.property p.1 p.2) := by
      simp [Svg.property, before]
      rfl
    rw [hprop, Text.splitAt_append hbefore (Text.splitAt_cons_self _ _),
      Text.splitAt_append (fun b hb => (ne_of_isPlain hvalue b hb).2.2)
        (Text.splitAt_cons_self _ _), pairs, ih fun q hq => hgiven q (List.mem_cons_of_mem _ hq),
      List.append_nil, List.append_nil, List.map_cons]

theorem attributeName_eq {t : Text} (h : isName t = true) : attributeName (before t) = t := by
  rcases ne_of_isName h with ⟨hne, hbytes⟩
  have hdrop : (before t).dropWhile (· == ' '.toUInt8) = t ++ ['='.toUInt8] := by
    cases t with
    | nil => exact absurd rfl hne
    | cons b t =>
      change ((b :: t) ++ ['='.toUInt8]).dropWhile (· == ' '.toUInt8) = _
      rw [List.cons_append, List.dropWhile_cons_of_neg]
      simpa using (hbytes b List.mem_cons_self).1
  rw [attributeName, hdrop,
    List.takeWhile_append_of_pos fun b hb => by simpa using (hbytes b hb).2.1,
    List.takeWhile_cons_of_neg (by decide), List.append_nil]

/-- The attributes of a tag are those with which it has been made. -/
theorem attributes_tagged (hlabel : isName label = true) (hgiven : Proper given) :
    attributes (tagged label given) = given := by
  have hdrop : (tagged label given).dropWhile (· != ' '.toUInt8) =
      given.flatMap fun p => Svg.property p.1 p.2 := by
    rw [tagged, List.dropWhile_append_of_pos fun b hb => by
      simpa using ((ne_of_isName hlabel).2 b hb).1]
    cases given with
    | nil => rfl
    | cons p given => rfl
  -- Taking the blank and the equals sign away again leaves the name.
  have hnames : ∀ p ∈ given, (attributeName (before p.1), p.2) = p := fun p hp => by
    rw [attributeName_eq (hgiven p hp).1]
  rw [attributes, hdrop, pairs_splitAt hgiven, List.map_map]
  exact (List.map_congr_left hnames).trans (List.map_id' _)

end Tags

end Markup

end Derivations
