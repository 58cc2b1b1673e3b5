import Rehome.Tsconfig.Comments
import Mathlib.Data.List.Infix

/-!
# Comments are dropped and nothing else

A text is made of single characters, strings and comments, which `Outside` puts together without
looking at the reader. Between two of these pieces a text may be cut, as long as the cut does not part
the two characters that open a comment, and the parts can be stripped one by one. What is left has no
comments any more: a slash that is kept is never followed by a dropped one, so nothing new opens.
-/
namespace Rehome.Tsconfig

/-! ## The pieces of a text -/

/-- The text starts with a comment. -/
def Opens (text : List Char) : Prop := ['/', '/'] <+: text ∨ ['/', '*'] <+: text

/-- What may stand between the quotes of a string. A backslash escapes the character behind it. -/
inductive StringBody : List Char → Prop
  | nil : StringBody []
  | plain {c : Char} {body : List Char} (notQuote : c ≠ '"') (notBackslash : c ≠ '\\')
      (rest : StringBody body) : StringBody (c :: body)
  | escaped {c : Char} {body : List Char} (rest : StringBody body) : StringBody ('\\' :: c :: body)

/-- What may stand behind a quote that is never closed. It may break off after a backslash. -/
inductive OpenBody : List Char → Prop
  | nil : OpenBody []
  | backslash : OpenBody ['\\']
  | plain {c : Char} {body : List Char} (notQuote : c ≠ '"') (notBackslash : c ≠ '\\')
      (rest : OpenBody body) : OpenBody (c :: body)
  | escaped {c : Char} {body : List Char} (rest : OpenBody body) : OpenBody ('\\' :: c :: body)

/-- A string or a comment that is closed, and what is kept of it. -/
inductive Passage : (whole kept : List Char) → Prop
  | string {body : List Char} (sound : StringBody body) :
      Passage ('"' :: (body ++ ['"'])) ('"' :: (body ++ ['"']))
  | line {comment : List Char} (oneLine : '\n' ∉ comment) :
      Passage ('/' :: '/' :: (comment ++ ['\n'])) ['\n']
  | block {comment : List Char} (unended : ¬ ['*', '/'] <:+: comment) :
      Passage ('/' :: '*' :: (comment ++ ['*', '/'])) []

/-- The text ends outside strings and comments. -/
inductive Outside : List Char → Prop
  | nil : Outside []
  | plain {c : Char} {text : List Char} (notQuote : c ≠ '"') (harmless : ¬ Opens (c :: text))
      (rest : Outside text) : Outside (c :: text)
  | passage {whole kept text : List Char} (closed : Passage whole kept) (rest : Outside text) :
      Outside (whole ++ text)

/-- The text ends outside strings when nothing in it is taken for a comment. -/
inductive OutsideStrings : List Char → Prop
  | nil : OutsideStrings []
  | plain {c : Char} {text : List Char} (notQuote : c ≠ '"') (rest : OutsideStrings text) :
      OutsideStrings (c :: text)
  | string {body text : List Char} (sound : StringBody body) (rest : OutsideStrings text) :
      OutsideStrings ('"' :: (body ++ '"' :: text))

/-- The text ends with a slash that is kept. -/
def KeepsLastSlash (text : List Char) : Prop :=
  ∃ front, text = front ++ ['/'] ∧ stripComments text = stripComments front ++ ['/']

variable {c : Char} {a b body comment text whole kept : List Char}

theorem opens_iff : Opens text ↔ ∃ rest, text = '/' :: '/' :: rest ∨ text = '/' :: '*' :: rest := by
  unfold Opens
  constructor
  · rintro (⟨rest, rfl⟩ | ⟨rest, rfl⟩)
    · exact ⟨rest, .inl rfl⟩
    · exact ⟨rest, .inr rfl⟩
  · rintro ⟨rest, rfl | rfl⟩
    · exact .inl ⟨rest, rfl⟩
    · exact .inr ⟨rest, rfl⟩

theorem opens_cons_cons {d : Char} : Opens (c :: d :: text) ↔ c = '/' ∧ (d = '/' ∨ d = '*') := by
  simp only [Opens, List.cons_prefix_cons, List.nil_prefix, and_true, ← and_or_left, eq_comm]

theorem Opens.head_eq (opens : Opens (c :: text)) : c = '/' := by
  obtain ⟨rest, start | start⟩ := opens_iff.1 opens
  · exact (List.cons.inj start).1
  · exact (List.cons.inj start).1

theorem Opens.of_prefix (opens : Opens a) (front : a <+: text) : Opens text :=
  opens.imp (·.trans front) (·.trans front)

/-- Whether a comment opens is decided by two characters. -/
theorem opens_of_opens_append (opens : Opens (c :: (a ++ b))) :
    Opens (c :: a) ∨ a = [] ∧ c = '/' ∧ Opens ('/' :: b) := by
  cases a with
  | nil =>
    obtain rfl := opens.head_eq
    exact .inr ⟨rfl, rfl, opens⟩
  | cons second a => exact .inl (opens_cons_cons.2 (opens_cons_cons.1 opens))

/-! ## One piece at a time -/

/-- A character that opens neither a string nor a comment is kept. -/
theorem stripComments_plain (notQuote : c ≠ '"') (harmless : ¬ Opens (c :: text)) :
    stripComments (c :: text) = c :: stripComments text := by
  unfold stripComments
  rw [stripFrom, if_neg notQuote]
  · rintro rest rfl rfl
    exact harmless (opens_iff.2 ⟨rest, .inl rfl⟩)
  · rintro rest rfl rfl
    exact harmless (opens_iff.2 ⟨rest, .inr rfl⟩)

theorem stripFrom_string (sound : StringBody body) (text : List Char) :
    stripFrom .string (body ++ text) = body ++ stripFrom .string text := by
  induction sound with
  | nil => rfl
  | plain notQuote notBackslash _ ih => simp [stripFrom, notQuote, notBackslash, ih]
  | escaped _ ih => simp [stripFrom, ih]

theorem stripFrom_line (oneLine : '\n' ∉ comment) (text : List Char) :
    stripFrom .line (comment ++ '\n' :: text) = '\n' :: stripFrom .code text := by
  induction comment with
  | nil => simp [stripFrom]
  | cons c comment ih =>
    rw [List.mem_cons, not_or] at oneLine
    simp [stripFrom, Ne.symm oneLine.1, ih oneLine.2]

/-- A comment goes on to the first star with a slash behind it; the star may be the one just read. -/
theorem stripFrom_block (star : Bool)
    (unended : ¬ ['*', '/'] <:+: if star then '*' :: comment else comment) (text : List Char) :
    stripFrom (.block star) (comment ++ '*' :: '/' :: text) = stripFrom .code text := by
  induction comment generalizing star with
  | nil => simp [stripFrom]
  | cons c comment ih =>
    have later : ¬ ['*', '/'] <:+: if decide (c = '*') then '*' :: comment else comment := by
      intro ended
      have inside : ['*', '/'] <:+: c :: comment := by
        by_cases isStar : c = '*'
        · simpa [isStar] using ended
        · simp only [isStar, decide_false] at ended
          exact ended.trans (List.suffix_cons c comment).isInfix
      cases star with
      | true => exact unended (inside.trans (List.suffix_cons '*' (c :: comment)).isInfix)
      | false => exact unended inside
    have goesOn : (star && decide (c = '/')) = false := by
      cases star with
      | false => rfl
      | true =>
        rw [Bool.true_and, decide_eq_false_iff_not]
        rintro rfl
        exact unended ⟨[], comment, rfl⟩
    rw [List.cons_append, stripFrom, goesOn]
    exact ih _ later

/-- Of a string everything is kept, of a comment at most the line break that ends it. -/
theorem stripComments_passage (closed : Passage whole kept) (text : List Char) :
    stripComments (whole ++ text) = kept ++ stripComments text := by
  cases closed with
  | @string body sound =>
    have quote : stripFrom .string ('"' :: text) = '"' :: stripFrom .code text := by
      simp [stripFrom]
    simp [stripComments, stripFrom, stripFrom_string sound, quote]
  | line oneLine => simpa [stripComments, stripFrom] using stripFrom_line oneLine text
  | block unended => simpa [stripComments, stripFrom] using stripFrom_block false unended text

/-- A string that is not closed is kept as well. -/
theorem stripComments_openString (sound : OpenBody body) :
    stripComments ('"' :: body) = '"' :: body := by
  have kept : stripFrom .string body = body := by
    induction sound with
    | nil => rfl
    | backslash => rfl
    | plain notQuote notBackslash _ ih => simp [stripFrom, notQuote, notBackslash, ih]
    | escaped _ ih => simp [stripFrom, ih]
  simp [stripComments, stripFrom, kept]

/-! ## Cutting a text -/

theorem KeepsLastSlash.append_left (keeps : KeepsLastSlash text)
    (pass : ∀ part, part <+: text → stripComments (whole ++ part) = kept ++ stripComments part) :
    KeepsLastSlash (whole ++ text) := by
  obtain ⟨part, rfl, last⟩ := keeps
  refine ⟨whole ++ part, (List.append_assoc ..).symm, ?_⟩
  rw [pass _ (List.prefix_refl _), last, pass part (List.prefix_append part _), List.append_assoc]

/-- A text that ends outside strings and comments can be cut off, unless the cut parts the two
characters of an opening. -/
theorem stripComments_append (outside : Outside a) (uncut : KeepsLastSlash a → ¬ Opens ('/' :: b)) :
    stripComments (a ++ b) = stripComments a ++ stripComments b := by
  induction outside with
  | nil => rfl
  | @plain c text notQuote harmless _ ih =>
    have still : ¬ Opens (c :: (text ++ b)) := by
      intro opens
      rcases opens_of_opens_append opens with here | ⟨rfl, rfl, parted⟩
      · exact harmless here
      · exact uncut ⟨[], rfl, rfl⟩ parted
    have pass : ∀ part, part <+: text → stripComments ([c] ++ part) = [c] ++ stripComments part :=
      fun part front => stripComments_plain notQuote fun opens =>
        harmless (opens.of_prefix (List.cons_prefix_cons.2 ⟨rfl, front⟩))
    rw [List.cons_append, stripComments_plain notQuote still,
      ih fun keeps => uncut (keeps.append_left pass), stripComments_plain notQuote harmless,
      List.cons_append]
  | @passage whole kept text closed _ ih =>
    have pass := stripComments_passage closed
    rw [List.append_assoc, pass, ih fun keeps => uncut (keeps.append_left fun part _ => pass part),
      pass, List.append_assoc]

/-! ## Nothing new opens -/

theorem stripComments_cons_of_ne (notSlash : c ≠ '/') (text : List Char) :
    ∃ rest, stripComments (c :: text) = c :: rest := by
  unfold stripComments
  rw [stripFrom]
  · exact ⟨_, rfl⟩
  · exact fun _ slash => absurd slash notSlash
  · exact fun _ slash => absurd slash notSlash

/-- Where no comment opens, none opens when the comments behind are gone: a slash has its next
character still behind it. -/
theorem not_opens_stripComments (harmless : ¬ Opens (c :: text)) :
    ¬ Opens (c :: stripComments text) := by
  cases text with
  | nil => exact harmless
  | cons next text =>
    by_cases slash : next = '/'
    · subst slash
      have differs : c ≠ '/' := by
        rintro rfl
        exact harmless (opens_iff.2 ⟨text, .inl rfl⟩)
      exact fun opens => differs opens.head_eq
    · obtain ⟨rest, same⟩ := stripComments_cons_of_ne slash text
      rw [same, opens_cons_cons]
      rwa [opens_cons_cons] at harmless

/-- The mode in which what is left of a text is read again. -/
def Mode.again : Mode → Mode
  | .line | .block _ => .code
  | m => m

theorem stripFrom_again (m : Mode) (text : List Char) :
    stripFrom m.again (stripFrom m text) = stripFrom m text := by
  fun_induction stripFrom m text with
  | case1 m => cases m <;> rfl
  | case2 text ih => exact ih
  | case3 text ih => exact ih
  | case4 c text noLine noBlock ih =>
    by_cases quote : c = '"'
    · subst quote
      exact congrArg ('"' :: ·) ih
    · have harmless : ¬ Opens (c :: text) := by
        intro opens
        obtain ⟨rest, start | start⟩ := opens_iff.1 opens
        · exact noLine rest (List.cons.inj start).1 (List.cons.inj start).2
        · exact noBlock rest (List.cons.inj start).1 (List.cons.inj start).2
      rw [if_neg quote] at ih ⊢
      exact (stripComments_plain quote (not_opens_stripComments harmless)).trans
        (congrArg (c :: ·) ih)
  | case5 c text ih =>
    have string : ∀ rest, stripFrom .string (c :: rest) =
        c :: stripFrom (if c = '\\' then .escape else if c = '"' then .code else .string) rest :=
      fun rest => by rw [stripFrom]
    refine (string _).trans (congrArg (c :: ·) ?_)
    split_ifs at ih ⊢
    · exact ih
    · exact ih
    · exact ih
  | case6 c text ih =>
    have escape : ∀ rest, stripFrom .escape (c :: rest) = c :: stripFrom .string rest :=
      fun rest => by rw [stripFrom]
    exact (escape _).trans (congrArg (c :: ·) ih)
  | case7 text ih => exact congrArg ('\n' :: ·) ih
  | case8 c text _ ih => exact ih
  | case9 star c text _ ih => exact ih
  | case10 star c text _ ih => exact ih

/-! ## Texts without comments -/

/-- A string is closed by the first quote that is not escaped, if there is one. -/
theorem stringBody_or_openBody (text : List Char) :
    (∃ body rest, StringBody body ∧ text = body ++ '"' :: rest) ∨ OpenBody text := by
  induction size : text.length using Nat.strong_induction_on generalizing text with
  | _ n ih =>
    subst size
    cases text with
    | nil => exact .inr .nil
    | cons c text =>
      by_cases quote : c = '"'
      · exact .inl ⟨[], text, .nil, by rw [quote]; rfl⟩
      by_cases backslash : c = '\\'
      · subst backslash
        cases text with
        | nil => exact .inr .backslash
        | cons c text =>
          have less : text.length < ('\\' :: c :: text).length := by
            simp only [List.length_cons]
            omega
          rcases ih text.length less text rfl with ⟨body, rest, sound, rfl⟩ | sound
          · exact .inl ⟨_, rest, .escaped sound, rfl⟩
          · exact .inr (.escaped sound)
      · rcases ih text.length (by simp) text rfl with ⟨body, rest, sound, rfl⟩ | sound
        · exact .inl ⟨_, rest, .plain quote backslash sound, rfl⟩
        · exact .inr (.plain quote backslash sound)

/-- What is left stands in the text in this order. -/
theorem stripFrom_sublist (m : Mode) (text : List Char) : (stripFrom m text).Sublist text := by
  fun_induction stripFrom m text with
  | case1 => exact .slnil
  | case2 text ih => exact (ih.cons '/').cons '/'
  | case3 text ih => exact (ih.cons '*').cons '/'
  | case4 c text _ _ ih => exact ih.cons_cons c
  | case5 c text ih => exact ih.cons_cons c
  | case6 c text ih => exact ih.cons_cons c
  | case7 text ih => exact ih.cons_cons '\n'
  | case8 c text _ ih => exact ih.cons c
  | case9 star c text _ ih => exact ih.cons c
  | case10 star c text _ ih => exact ih.cons c

theorem length_stripComments_lt_of_opens (opens : Opens text) :
    (stripComments text).length < text.length := by
  obtain ⟨rest, rfl | rfl⟩ := opens_iff.1 opens
  · have less := (stripFrom_sublist .line rest).length_le
    exact Nat.lt_succ_of_lt (Nat.lt_succ_of_le less)
  · have less := (stripFrom_sublist (.block false) rest).length_le
    exact Nat.lt_succ_of_lt (Nat.lt_succ_of_le less)

/-- Something is dropped wherever a comment opens outside strings, there or earlier. -/
theorem length_stripComments_lt (outside : OutsideStrings a) (opens : Opens b) :
    (stripComments (a ++ b)).length < (a ++ b).length := by
  induction outside with
  | nil => exact length_stripComments_lt_of_opens opens
  | @plain c text notQuote _ ih =>
    by_cases earlier : Opens (c :: (text ++ b))
    · exact length_stripComments_lt_of_opens earlier
    · rw [List.cons_append, stripComments_plain notQuote earlier]
      exact Nat.succ_lt_succ ih
  | @string body text sound _ ih =>
    have pass := stripComments_passage (.string sound) (text ++ b)
    simp only [List.cons_append, List.append_assoc, List.nil_append] at pass ⊢
    rw [pass]
    simp only [List.length_cons, List.length_append] at ih ⊢
    omega

/-- A text in which no comment opens outside strings stays as it is. -/
theorem stripComments_eq_self
    (silent : ∀ a b, text = a ++ b → OutsideStrings a → ¬ Opens b) : stripComments text = text := by
  induction size : text.length using Nat.strong_induction_on generalizing text with
  | _ n ih =>
    subst size
    cases text with
    | nil => rfl
    | cons c text =>
      by_cases quote : c = '"'
      · subst quote
        rcases stringBody_or_openBody text with ⟨body, rest, sound, rfl⟩ | sound
        · have quiet : ∀ a b, rest = a ++ b → OutsideStrings a → ¬ Opens b :=
            fun a b cut outside => silent ('"' :: (body ++ '"' :: a)) b (by simp [cut])
              (.string sound outside)
          have less : rest.length < ('"' :: (body ++ '"' :: rest)).length := by
            simp only [List.length_cons, List.length_append]
            omega
          have later := ih rest.length less quiet rfl
          have pass := stripComments_passage (.string sound) rest
          simp only [List.cons_append, List.append_assoc, List.nil_append, later] at pass
          exact pass
        · exact stripComments_openString sound
      · have harmless := silent [] (c :: text) rfl .nil
        rw [stripComments_plain quote harmless]
        refine congrArg (c :: ·) (ih text.length (by simp) (fun a b cut outside => ?_) rfl)
        exact silent (c :: a) b (by rw [cut]; rfl) (.plain quote outside)

/-- Comments are dropped exactly. Strings are kept as they are, closed or not; a text stays the same
exactly if no comment opens outside strings; and stripping twice is stripping once. A text may be cut
outside strings and comments, behind anything but a kept slash, and the parts stripped one by one: a
closed comment between them leaves nothing, one that ends with its line the line break. -/
theorem comments_dropped_exactly :
    (∀ a body b, Outside a → StringBody body →
      stripComments (a ++ '"' :: (body ++ '"' :: b)) =
        stripComments a ++ '"' :: (body ++ '"' :: stripComments b)) ∧
    (∀ a body, Outside a → OpenBody body →
      stripComments (a ++ '"' :: body) = stripComments a ++ '"' :: body) ∧
    (∀ text, stripComments text = text ↔ ∀ a b, text = a ++ b → OutsideStrings a → ¬ Opens b) ∧
    (∀ text, stripComments (stripComments text) = stripComments text) ∧
    ∀ a b, Outside a → ¬ KeepsLastSlash a →
      stripComments (a ++ b) = stripComments a ++ stripComments b ∧
      (∀ comment, ¬ ['*', '/'] <:+: comment →
        stripComments (a ++ '/' :: '*' :: (comment ++ '*' :: '/' :: b)) = stripComments (a ++ b)) ∧
      ∀ comment, '\n' ∉ comment →
        stripComments (a ++ '/' :: '/' :: (comment ++ '\n' :: b)) =
          stripComments a ++ '\n' :: stripComments b := by
  have quote : ∀ text, ¬ Opens ('/' :: '"' :: text) := fun text => by simp [opens_cons_cons]
  refine ⟨fun a body b outside sound => ?_, fun a body outside sound => ?_, fun text => ⟨?_, ?_⟩,
    stripFrom_again .code, fun a b outside free => ?_⟩
  · rw [stripComments_append outside fun _ => quote _]
    simpa using stripComments_passage (.string sound) b
  · rw [stripComments_append outside fun _ => quote _, stripComments_openString sound]
  · rintro same a b rfl outside opens
    have less := length_stripComments_lt outside opens
    rw [same] at less
    exact lt_irrefl _ less
  · exact stripComments_eq_self
  · have cut : ∀ rest, stripComments (a ++ rest) = stripComments a ++ stripComments rest :=
      fun rest => stripComments_append outside fun keeps => absurd keeps free
    refine ⟨cut b, fun comment unended => ?_, fun comment oneLine => ?_⟩
    · rw [cut, cut]
      simpa using stripComments_passage (.block unended) b
    · rw [cut]
      simpa using stripComments_passage (.line oneLine) b

/-- A string with the openings of comments and an escaped quote in it, a comment that is closed by its
second slash, and behind it one that holds a quote. -/
theorem comments_dropped_behind_string :
    let a := "[\"//*\\\"\"/*/*/".toList
    let b := "/x".toList
    Outside a ∧ ¬ KeepsLastSlash a ∧
      stripComments (a ++ '/' :: '*' :: ("\"".toList ++ '*' :: '/' :: b)) = stripComments (a ++ b) ∧
      stripComments (a ++ b) = "[\"//*\\\"\"/x".toList := by
  intro a b
  have body : StringBody ['/', '/', '*', '\\', '"'] :=
    .plain (by decide) (by decide) (.plain (by decide) (by decide)
      (.plain (by decide) (by decide) (.escaped .nil)))
  have outside : Outside a := by
    have comment : Outside ['/', '*', '/', '*', '/'] :=
      .passage (.block (by decide : ¬ ['*', '/'] <:+: ['/'])) .nil
    have string : Outside (['"', '/', '/', '*', '\\', '"', '"'] ++ ['/', '*', '/', '*', '/']) :=
      .passage (.string body) comment
    have bracket : Outside ('[' :: ['"', '/', '/', '*', '\\', '"', '"', '/', '*', '/', '*', '/']) :=
      .plain (by decide) (by simp [Opens]) string
    exact bracket
  have free : ¬ KeepsLastSlash a := by
    rintro ⟨front, -, last⟩
    have same := congrArg List.getLast? last
    rw [List.getLast?_concat] at same
    exact absurd same (by decide)
  obtain ⟨-, -, -, -, cut⟩ := comments_dropped_exactly
  obtain ⟨parts, blocks, -⟩ := cut a b outside free
  exact ⟨outside, free, blocks _ (by decide), by rw [parts]; rfl⟩

end Rehome.Tsconfig
