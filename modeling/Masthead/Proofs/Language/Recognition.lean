import Masthead.Language.BuiltIn
import Masthead.Proofs.Comment.Completeness
import Masthead.Proofs.Header.Revision

/-!
# What a language declares is found

A scan compares whole words, or the starts of words, with the tokens, and it looks for comments before
it looks for regions. A line comment is found in every line that starts with its token, if the token
is a word. A region is found with all the blank lines in it, if its tokens are words that no comment
starts with.
-/
namespace Masthead
open Text LineEnding Comment

namespace Comment

variable {g : Grammar} {e : LineEnding} {q : Place} {pieces : List Piece} {lead t : Text}

theorem leading_of_steps (hsteps : Steps g (.start t) pieces q) (hne : pieces ≠ [])
    (hdepth : q.depth = 0) (hq : q.Awaits lead []) : g.leading t = .ok t := by
  have htext : q.text = lead := by rw [hq.text, List.append_nil]
  have hhalt : Halts g q lead .endOfText :=
    ⟨htext, hq.blank, fun hwatches => not_holdsBlankLine (hq.gap hwatches)⟩
  rw [leading_of_scanned hsteps hne hdepth hhalt (by simp), ← htext]
  exact congrArg _ hsteps.text.symm

theorem isWord_of_readItem {g : Grammar} {token : Token} {t rest : Text} {item : Item}
    (htoken : token ∈ g.line) (h : g.readItem t = .item item rest) (hkind : item.kind = .lineComment) :
    IsWord token.text := by
  cases Grammar.readItem_eq_item_iff.mp h with
  | lineComment starts =>
    rw [Grammar.startsLineComment, Option.any_eq_true] at starts
    obtain ⟨token', htoken', hpre⟩ := starts
    obtain rfl : token = token' := Option.mem_unique htoken htoken'
    have hsub := (List.isPrefixOf_iff_prefix.mp hpre).subset
    exact ⟨token.ne_nil, fun c hc => isBlank_of_mem_firstWord (hsub hc)⟩
  | blockComment _ _ read =>
    obtain ⟨inner, -, rfl⟩ := Grammar.readBlock_eq_item_iff.mp read
    cases hkind
  | regionStart _ _ _ read =>
    cases read
    cases hkind
  | regionEnd _ _ _ _ read =>
    cases read
    cases hkind

/-- The token of line comments is found in the lines that start with it exactly if it is a word. -/
theorem readItem_lineComment_iff {g : Grammar} {token : Token} (htoken : token ∈ g.line) :
    (∀ more : Text, (∀ c ∈ more, isLineBreak c = false) →
      g.readItem (token.text ++ more) = .item ⟨.lineComment, token.text ++ more⟩ []) ↔
    IsWord token.text := by
  constructor
  · intro h
    exact isWord_of_readItem htoken (h [] (by simp)) rfl
  · intro hword more hmore
    have hitem := @readItem_lineComment g [] token more htoken hword.2
      ⟨hword.unbroken_append hmore, by simp⟩
    rwa [List.append_nil] at hitem

section LineComment

variable {token : Token} {more : Text} (htoken : token ∈ g.line) (hword : IsWord token.text)
  (hmore : ∀ c ∈ more, isLineBreak c = false)
include htoken hword hmore

theorem leading_lineComment : g.leading (token.text ++ more) = .ok (token.text ++ more) := by
  have hitem := (readItem_lineComment_iff htoken).mpr hword more hmore
  have hstart : (Place.start (token.text ++ more)).Awaits [] ([] ++ (token.text ++ more ++ [])) :=
    ⟨by simp [Place.start], rfl, by simp⟩
  have hstep := hstart.step (by simp) (by rwa [List.append_nil]) rfl
  have hend : Place.Awaits ⟨true, 0, []⟩ [] [] := ⟨rfl, rfl, by simp⟩
  exact leading_of_steps (.cons hstep .nil) (by simp) rfl hend

end LineComment

/-- Scripts with `#` comments have no such regions. -/
example : Language.builtIn[11].grammar.leading "#region\n\n#endregion\n".toList =
    .ok "#region\n\n".toList := by cbv

/-- In a region nothing else is looked for than its end, so blanks of any kind stand in it. -/
theorem leading_region {start stop : Token} {more gap more' : Text} (e : LineEnding)
    (hstart : start ∈ g.regionStart) (hstop : stop ∈ g.regionEnd) (hword : IsWord start.text)
    (hwords : OneOrTwoWords stop.text)
    (hcomment : ∀ token ∈ g.commentTokens, ¬ token <+: start.text ∧ ¬ token <+: stop.text.firstWord)
    (hne : start.text ≠ stop.text.firstWord) (hmore : IsRemark more) (hmore' : IsRemark more')
    (hgap : gap.isAllBlank) :
    g.leading (start.text ++ more ++ e.text ++ gap ++ (stop.text ++ more' ++ e.text)) =
      .ok (start.text ++ more ++ e.text ++ gap ++ (stop.text ++ more' ++ e.text)) := by
  obtain ⟨closing, hclosing⟩ : ∃ closing, closing = stop.text ++ more' := ⟨_, rfl⟩
  have hbehind : ∀ c ∈ (e.text ++ (gap ++ (closing ++ e.text))).head?, isLineBreak c :=
    isLineBreak_head?_text_append e _
  have hend : ∀ c ∈ e.text.head?, isLineBreak c := by
    simpa using isLineBreak_head?_text_append e []
  obtain ⟨hspelled, hfirst⟩ := isSpelledBy_oneOrTwoWords hwords (hmore'.isBlank_head? hend)
  rw [← List.append_assoc, ← hclosing] at hspelled hfirst
  have hopens := readItem_regionStart hstart hword.2 (fun token h => (hcomment token h).1) hmore hbehind
  have hcloses : g.readItem (closing ++ e.text) = .item ⟨.regionEnd, closing⟩ e.text := by
    refine readItem_regionEnd hstop hspelled ?_ ?_ ?_
    · rw [hfirst]
      exact fun token h => (hcomment token h).2
    · rw [hfirst]
      rintro start' hstart'
      obtain rfl : start = start' := Option.mem_unique hstart hstart'
      exact hne
    · exact hclosing ▸ hmore'.fillsLine hwords.unbroken hend
  have hfront : (Place.start _).Awaits []
      ([] ++ (start.text ++ more ++ (e.text ++ (gap ++ (closing ++ e.text))))) :=
    ⟨rfl, rfl, by simp⟩
  have hinside : Place.Awaits ⟨true, 1, e.text ++ (gap ++ (closing ++ e.text))⟩ (e.text ++ gap)
      ([] ++ (closing ++ e.text)) :=
    ⟨by simp, by simp [hgap], by simp [Place.watches]⟩
  have hsteps := Steps.cons (hfront.step (by simp) hopens rfl)
    (.cons (hinside.step (by simp) hcloses rfl) .nil)
  have hawaits : Place.Awaits ⟨true, 0, e.text⟩ e.text [] := by
    simpa using Place.Awaits.lineEnding e 0 []
  have hleading := leading_of_steps hsteps (by simp) rfl hawaits
  simpa [hclosing] using hleading

end Comment

namespace Language

variable {l : Language}

/-- The words by which regions are opened and closed start neither like a comment nor like one
another. -/
structure HasOwnRegions (l : Language) (start stop : Text) : Prop where
  start_word : IsWord start
  stop_words : OneOrTwoWords stop
  comment : ∀ token ∈ l.grammar.commentTokens, ¬ token <+: start ∧ ¬ token <+: stop.firstWord
  ne : start ≠ stop.firstWord

theorem mem_bind_ofText? {field : Option Text} {t : Text} (h : field = some t) (hne : t ≠ []) :
    (⟨t, hne⟩ : Token) ∈ field.bind Token.ofText? := by
  rw [h]
  exact Token.ofText?_eq_some_iff.mpr rfl

theorem exists_regionEnd_of_validate (hvalid : l.validate = .ok ()) {start : Text}
    (hstart : l.regionStart = some start) : ∃ stop, l.regionEnd = some stop := by
  rw [← Option.isSome_iff_exists]
  unfold validate at hvalid
  split at hvalid
  · cases hvalid
  · split at hvalid
    · cases hvalid
    · rename_i hregion
      simpa [hstart, Option.isSome_iff_ne_none] using hregion

/-- Of the built-in languages with regions only the one of `.ps1` files has a comment that starts like
a region. -/
theorem hasOwnRegions_builtIn : ∀ l ∈ builtIn, ".ps1".toList ∉ l.extensions →
    ∀ start ∈ l.regionStart, ∀ stop ∈ l.regionEnd, l.HasOwnRegions start stop := by
  have hall : ∀ l ∈ builtIn, ".ps1".toList ∉ l.extensions →
      ∀ start ∈ l.regionStart, ∀ stop ∈ l.regionEnd, IsWord start ∧
        (stop = "#endregion".toList ∨ stop = "#End".toList ++ [' '] ++ "Region".toList) ∧
        (∀ token ∈ l.grammar.commentTokens, ¬ token <+: start ∧ ¬ token <+: stop.firstWord) ∧
        start ≠ stop.firstWord := by decide
  intro l hl hother start hstart stop hstop
  obtain ⟨hword, hstop, hcomment, hne⟩ := hall l hl hother start hstart stop hstop
  refine ⟨hword, ?_, hcomment, hne⟩
  obtain rfl | rfl := hstop
  · exact .one (by decide)
  · exact .two (by decide) (by decide) (by decide) (by simp)

/-- A line that starts with a declared word is a comment, and blank lines do not end a declared
region. -/
theorem declared_tokens_found (hvalid : l.validate = .ok ()) :
    (∀ token, l.lineComment = some token → IsWord token →
      ∀ more : Text, (∀ c ∈ more, isLineBreak c = false) → l.grammar.isComplete (token ++ more)) ∧
    ∀ start, l.regionStart = some start → ∃ stop, l.regionEnd = some stop ∧
      (l.HasOwnRegions start stop → ∀ (e : LineEnding) (more gap more' : Text), IsRemark more →
        gap.isAllBlank → IsRemark more' →
        l.grammar.isComplete (start ++ more ++ e.text ++ gap ++ (stop ++ more' ++ e.text))) := by
  constructor
  · intro token htoken hword more hmore
    have hmem : (⟨token, hword.1⟩ : Token) ∈ l.grammar.line := mem_bind_ofText? htoken hword.1
    exact isComplete_of_leading (leading_lineComment hmem hword hmore)
  · intro start hstart
    obtain ⟨stop, hstop⟩ := exists_regionEnd_of_validate hvalid hstart
    refine ⟨stop, hstop, fun hown e more gap more' hmore hgap hmore' => ?_⟩
    have hstart' : (⟨start, hown.start_word.1⟩ : Token) ∈ l.grammar.regionStart :=
      mem_bind_ofText? hstart hown.start_word.1
    have hstop' : (⟨stop, hown.stop_words.ne_nil⟩ : Token) ∈ l.grammar.regionEnd :=
      mem_bind_ofText? hstop hown.stop_words.ne_nil
    exact isComplete_of_leading (leading_region e hstart' hstop' hown.start_word hown.stop_words
      hown.comment hown.ne hmore hmore' hgap)

/-- A region of Visual Basic with blank lines in it, and a comment. -/
theorem declared_tokens_found_basic :
    builtIn[2].grammar.isComplete "#Region a\n \n\n  #End Region\n".toList ∧
      builtIn[2].grammar.isComplete "'a b".toList := by
  have hvalid : builtIn[2].validate = .ok () := by cbv
  obtain ⟨hline, hregion⟩ := declared_tokens_found hvalid
  obtain ⟨stop, hstop, hfound⟩ := hregion "#Region".toList rfl
  have hown : builtIn[2].HasOwnRegions "#Region".toList stop :=
    hasOwnRegions_builtIn _ (by decide) (by decide) _ rfl _ hstop
  obtain rfl : "#End Region".toList = stop := Option.some.inj hstop
  exact ⟨hfound hown .lf " a".toList " \n\n  ".toList [] ⟨by rintro c ⟨⟩; rfl, eq_false_of_not_any (by decide)⟩
    (by decide) ⟨by simp, by simp⟩, hline _ rfl (by decide) "a b".toList (eq_false_of_not_any (by decide))⟩

/-- A token with a blank in it starts no word, so no line comment is found. -/
theorem not_declared_tokens_found : ¬ ∀ l : Language, l.validate = .ok () →
    (∀ token, l.lineComment = some token → ∀ more : Text, (∀ c ∈ more, isLineBreak c = false) →
      l.grammar.isComplete (token ++ more)) ∧
    ∀ start stop, l.regionStart = some start → l.regionEnd = some stop → ∀ blankLines : ℕ,
      l.grammar.isComplete (start ++ ['\n'] ++ List.replicate blankLines '\n' ++ (stop ++ ['\n'])) := by
  intro h
  have hremark := (h ((ofExtensions [".bat".toList]).withLineComment "REM ".toList) (by cbv)).1 _ rfl
    "a".toList (eq_false_of_not_any (by decide))
  have hnone : ((ofExtensions [".bat".toList]).withLineComment "REM ".toList).grammar.isComplete
      "REM a".toList = false := by cbv
  exact Bool.false_ne_true (hnone.symm.trans hremark)

end Language
end Masthead
