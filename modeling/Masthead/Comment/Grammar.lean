import Masthead.Text

/-!
# Comment grammars

How a language writes comments and regions, and the first item of a text: a line comment, a block
comment, or a line that opens or closes a region. `readItem` consumes the characters of the item and
nothing else, and an item is never empty.
-/
namespace Masthead.Comment

/-- A text that opens or closes something; it is not empty. -/
structure Token where
  text : Text
  ne_nil : text ≠ []
  deriving DecidableEq

namespace Token

def ofText? (t : Text) : Option Token := if h : t = [] then none else some ⟨t, h⟩

end Token

structure Grammar where
  line : Option Token
  block : Option (Token × Token)
  regionStart : Option Token
  regionEnd : Option Token
  deriving DecidableEq

namespace Grammar

/-- Empty tokens count as absent, and half a block pair is none. -/
def ofTexts (line blockStart blockEnd regionStart regionEnd : Option Text) : Grammar where
  line := line.bind Token.ofText?
  block := do
    let opener ← blockStart.bind Token.ofText?
    let closer ← blockEnd.bind Token.ofText?
    some (opener, closer)
  regionStart := regionStart.bind Token.ofText?
  regionEnd := regionEnd.bind Token.ofText?

end Grammar

inductive ItemKind where
  | lineComment
  | blockComment
  | regionStart
  | regionEnd
  deriving DecidableEq, Repr

structure Item where
  kind : ItemKind
  text : Text
  deriving DecidableEq, Repr

inductive Reading where
  | item (item : Item) (rest : Text)
  | unterminated
  | other
  deriving DecidableEq, Repr

def Reading.wholeLine (kind : ItemKind) (t : Text) : Reading :=
  .item ⟨kind, t.firstLine⟩ (t.dropWhile (!isLineBreak ·))

namespace Grammar

variable (g : Grammar)

def startsLineComment (word : Text) : Bool :=
  g.line.any fun token => token.text.isPrefixOf word

def blockAt? (word : Text) : Option (Token × Token) :=
  g.block.filter fun (opener, _) => opener.text.isPrefixOf word

/-- The word behind `word`, the first word of `t`, with spaces and tabs between them only. -/
def secondWord (t : Text) : Text :=
  Text.firstWord ((t.dropWhile (!isBlank ·)).dropWhile fun c => c == ' ' || c == '\t')

/-- The first two words of `t` spell the region end token, which may have blanks of its own. -/
def splitsRegionEnd (token : Token) (t : Text) : Bool :=
  let word := t.firstWord
  let second := secondWord t
  word != [] && word.isPrefixOf token.text && second != [] &&
    word ++ second == token.text.filter (!isBlank ·)

def closesRegion (t : Text) : Bool :=
  g.regionEnd.any fun token => t.firstWord == token.text || splitsRegionEnd token t

def opensRegion (t : Text) : Bool := g.regionStart.any fun token => t.firstWord == token.text

/-- A block comment ends with the first closing token behind the opening one. -/
def readBlock (opener closer : Token) (t : Text) : Reading :=
  match Text.splitAtFirst? closer.text (t.drop opener.text.length) with
  | some (inner, rest) =>
    .item ⟨.blockComment, t.take opener.text.length ++ inner ++ closer.text⟩ rest
  | none => .unterminated

/-- The item at the front of `t`. Comment tokens need only start the first word, while region tokens
are words. -/
def readItem (t : Text) : Reading :=
  if g.startsLineComment t.firstWord then .wholeLine .lineComment t
  else match g.blockAt? t.firstWord with
    | some (opener, closer) => readBlock opener closer t
    | none =>
      if g.opensRegion t then .wholeLine .regionStart t
      else if g.closesRegion t then .wholeLine .regionEnd t
      else .other

end Grammar

theorem firstLine_ne_nil {t : Text} (h : t.firstWord ≠ []) : t.firstLine ≠ [] := by
  cases t with
  | nil => simp [Text.firstWord] at h
  | cons c t =>
    by_cases hb : isBlank c
    · simp [Text.firstWord, hb] at h
    · have hl : isLineBreak c = false := by
        cases hc : isLineBreak c with
        | false => rfl
        | true => exact absurd (isBlank_of_isLineBreak hc) hb
      simp [Text.firstLine, hl]

theorem firstLine_append_dropWhile (t : Text) :
    t.firstLine ++ t.dropWhile (!isLineBreak ·) = t := List.takeWhile_append_dropWhile

namespace Grammar

variable {g : Grammar}

theorem firstWord_ne_nil_of_startsLineComment {t : Text}
    (h : g.startsLineComment t.firstWord) : t.firstWord ≠ [] := by
  intro hw
  simp only [startsLineComment, Option.any_eq_true, hw] at h
  obtain ⟨token, -, hp⟩ := h
  exact token.ne_nil (by simpa using hp)

theorem firstWord_ne_nil_of_blockAt? {t : Text} {opener closer : Token}
    (h : g.blockAt? t.firstWord = some (opener, closer)) : t.firstWord ≠ [] := by
  intro hw
  rw [hw] at h
  exact opener.ne_nil (by simpa using (Option.filter_eq_some_iff.mp h).2)

theorem firstWord_ne_nil_of_opensRegion {t : Text} (h : g.opensRegion t) : t.firstWord ≠ [] := by
  intro hw
  simp only [opensRegion, Option.any_eq_true, hw, beq_iff_eq] at h
  obtain ⟨token, -, hp⟩ := h
  exact token.ne_nil hp.symm

theorem firstWord_ne_nil_of_closesRegion {t : Text} (h : g.closesRegion t) :
    t.firstWord ≠ [] := by
  intro hw
  simp only [closesRegion, splitsRegionEnd, Option.any_eq_true, hw] at h
  obtain ⟨token, -, hp⟩ := h
  exact token.ne_nil (by simpa using hp.symm)

theorem readBlock_eq_item_iff {opener closer : Token} {t rest : Text} {item : Item} :
    readBlock opener closer t = .item item rest ↔ ∃ inner,
      Text.splitAtFirst? closer.text (t.drop opener.text.length) = some (inner, rest) ∧
        item = ⟨.blockComment, t.take opener.text.length ++ inner ++ closer.text⟩ := by
  unfold readBlock
  constructor
  · intro h
    split at h
    · rename_i inner after hsplit
      obtain ⟨rfl, rfl⟩ := Reading.item.inj h
      exact ⟨inner, hsplit, rfl⟩
    · cases h
  · rintro ⟨inner, hsplit, rfl⟩
    rw [hsplit]

theorem readBlock_eq_item {opener closer : Token} {t rest : Text} {item : Item}
    (h : readBlock opener closer t = .item item rest) :
    t = item.text ++ rest ∧ item.text ≠ [] := by
  obtain ⟨inner, hsplit, rfl⟩ := readBlock_eq_item_iff.mp h
  have hrest := Text.eq_of_splitAtFirst?_eq_some hsplit
  constructor
  · calc t = t.take opener.text.length ++ t.drop opener.text.length :=
          (List.take_append_drop _ _).symm
      _ = _ := by simp [hrest]
  · simp [closer.ne_nil]

/-- What makes the front of a text an item: a first word that starts with a comment token, or else the
words of a region. -/
inductive Reads (g : Grammar) (t : Text) (item : Item) (rest : Text) : Prop
  | lineComment (starts : g.startsLineComment t.firstWord)
      (read : Reading.wholeLine .lineComment t = .item item rest)
  | blockComment {opener closer : Token} (noLine : ¬ g.startsLineComment t.firstWord)
      (starts : g.blockAt? t.firstWord = some (opener, closer))
      (read : readBlock opener closer t = .item item rest)
  | regionStart (noLine : ¬ g.startsLineComment t.firstWord) (noBlock : g.blockAt? t.firstWord = none)
      (opens : g.opensRegion t) (read : Reading.wholeLine .regionStart t = .item item rest)
  | regionEnd (noLine : ¬ g.startsLineComment t.firstWord) (noBlock : g.blockAt? t.firstWord = none)
      (noStart : ¬ g.opensRegion t) (closes : g.closesRegion t)
      (read : Reading.wholeLine .regionEnd t = .item item rest)

theorem readItem_eq_item_iff {t rest : Text} {item : Item} :
    g.readItem t = .item item rest ↔ g.Reads t item rest := by
  unfold readItem
  constructor
  · intro h
    split at h
    · rename_i hstarts
      exact .lineComment hstarts h
    · rename_i hline
      split at h
      · rename_i hpair
        exact .blockComment hline hpair h
      · rename_i hblock
        split at h
        · rename_i hopens
          exact .regionStart hline hblock hopens h
        · rename_i hstart
          split at h
          · rename_i hcloses
            exact .regionEnd hline hblock hstart hcloses h
          · cases h
  · intro h
    cases h with
    | lineComment starts read => rw [if_pos starts, read]
    | blockComment noLine starts read => rw [if_neg noLine, starts, ← read]
    | regionStart noLine noBlock opens read => simp only [if_neg noLine, noBlock, if_pos opens, read]
    | regionEnd noLine noBlock noStart closes read =>
      simp only [if_neg noLine, noBlock, if_neg noStart, if_pos closes, read]

theorem Reads.firstWord_ne_nil {t rest : Text} {item : Item} (h : g.Reads t item rest) :
    t.firstWord ≠ [] := by
  cases h with
  | lineComment starts => exact firstWord_ne_nil_of_startsLineComment starts
  | blockComment _ starts => exact firstWord_ne_nil_of_blockAt? starts
  | regionStart _ _ opens => exact firstWord_ne_nil_of_opensRegion opens
  | regionEnd _ _ _ closes => exact firstWord_ne_nil_of_closesRegion closes

theorem readItem_eq_item {t rest : Text} {item : Item} (h : g.readItem t = .item item rest) :
    t = item.text ++ rest ∧ item.text ≠ [] := by
  have hreads := readItem_eq_item_iff.mp h
  have whole : ∀ {kind}, Reading.wholeLine kind t = .item item rest →
      t = item.text ++ rest ∧ item.text ≠ [] := by
    intro kind hread
    obtain ⟨rfl, rfl⟩ := Reading.item.inj hread
    exact ⟨(firstLine_append_dropWhile t).symm, firstLine_ne_nil hreads.firstWord_ne_nil⟩
  cases hreads with
  | lineComment _ read => exact whole read
  | blockComment _ _ read => exact readBlock_eq_item read
  | regionStart _ _ _ read => exact whole read
  | regionEnd _ _ _ _ read => exact whole read

theorem length_lt_of_readItem {t rest : Text} {item : Item}
    (h : g.readItem t = .item item rest) : rest.length < t.length := by
  obtain ⟨rfl, hne⟩ := readItem_eq_item h
  have := List.length_pos_iff.mpr hne
  simp
  omega

end Grammar
end Masthead.Comment
