import YulToolchain.Proofs.Text.Encoding
import YulToolchain.Proofs.Token.Call

/-!
# The Cursor in the Source

Where the cursor of the lexer stands, counted in bytes, however often the lexer is called.

The lexer keeps what is left to read. The bytes of that, without those that were reported
already, are the unread bytes, and the cursor stands where they begin. Every call but one
for the end of the input leaves fewer of them, so there are at most as many other calls as
the source has bytes. A token is cut out of the source between two positions at which a
character starts, as no byte of a character is reported when a token starts or ends.

There is one way out of the source. A string that is left open takes a backslash at the
end of the source for one that hides a character, and the cursor moves past the end by
one. The call that does so reports the string; the next one has no token to cut out, not
even the one for the end of the input.

## Main definitions

* `Lexer.after`: The lexer after some calls.
* `Lexer.unread`, `Lexer.position`: The unread bytes, and where they begin.
* `Lexer.LeavesString`: The call takes the cursor out of the source.

## Theorems

* `Lexer.Skips.passes`, `Lexer.Takes.passes`: The bytes that a call passes over.
* `Lexer.scan_unread_lt`: Calls make progress.
* `Lexer.take_position`: The cursor stands where the unread bytes begin.
* `Lexer.scan_overrun_iff`: Which calls take the cursor out of the source.
* `cursor_stays_inside`: Tokens are cut out of the source, and the end of the input is
  reached and kept, unless a call takes the cursor out of the source.
* `backslash_leads_out`: Such a source.
-/

namespace YulToolchain

namespace Lexer

/-- The lexer after some calls, if all of them have a token. -/
def after : Nat → Lexer → Option Lexer
  | 0, lx => some lx
  | n + 1, lx => match lx.scan with
    | none => none
    | some (_, next) => next.after n

/-- The bytes that were neither read nor reported. -/
def unread (lx : Lexer) : List UInt8 := (Text.bytes lx.rest).drop lx.reported

/-- Where the cursor stands in the source, counted in bytes. -/
def position (source : String) (lx : Lexer) : Nat :=
  source.utf8ByteSize - lx.unread.length + lx.overrun.toNat

/-- The call reads a string that is left open with a backslash at the end of the source, and
    takes the cursor out of it. -/
def LeavesString (lx : Lexer) : Prop := ∃ body, StringAt lx.behindGap.rest body ['\\']

variable {lx mid next : Lexer} {t : Token}

section Passing

theorem unread_eq (hreported : lx.reported = 0) : lx.unread = Text.bytes lx.rest := by
  rw [unread, hreported, List.drop_zero]

/-- What is read between two lexers is the text between them. -/
theorem unread_text {text : List Char} (hreported : lx.reported = 0)
    (hnext : next.reported = 0) (hrest : lx.rest = text ++ next.rest) :
    lx.unread = Text.bytes text ++ next.unread := by
  rw [unread_eq hreported, unread_eq hnext, hrest, Text.bytes_append]

/-- Reporting a byte moves the cursor past it. -/
theorem Orderly.reportByte_unread (h : lx.Orderly) {c : Char} {rest : List Char}
    (hrest : lx.rest = c :: rest) :
    ∃ byte ∈ String.utf8EncodeChar c, lx.unread = byte :: lx.reportByte.unread := by
  have hlt : lx.reported < (String.utf8EncodeChar c).length := by
    rw [String.length_utf8EncodeChar]
    exact h.reported_lt c (by rw [hrest]; rfl)
  refine ⟨(String.utf8EncodeChar c)[lx.reported], List.getElem_mem _, ?_⟩
  -- The next byte of the character, its later bytes, and the characters behind it.
  have hunread : lx.unread = (String.utf8EncodeChar c)[lx.reported]
      :: ((String.utf8EncodeChar c).drop (lx.reported + 1) ++ Text.bytes rest) := by
    rw [unread, hrest, Text.bytes_cons, List.drop_append_of_le_length (Nat.le_of_lt hlt),
      List.drop_eq_getElem_cons hlt, List.cons_append]
  rw [hunread, Lexer.reportByte, hrest]
  dsimp only
  split
  · rename_i hmore
    have hsize : lx.reported + 1 ≤ (String.utf8EncodeChar c).length := by
      rw [String.length_utf8EncodeChar]
      exact Nat.le_of_lt hmore
    show _ = _ :: (Text.bytes (c :: rest)).drop (lx.reported + 1)
    rw [Text.bytes_cons, List.drop_append_of_le_length hsize]
  · rename_i hlast
    have hall : (String.utf8EncodeChar c).drop (lx.reported + 1) = [] := by
      rw [List.drop_eq_nil_iff, String.length_utf8EncodeChar]
      exact Nat.le_of_not_lt hlast
    rw [hall]
    rfl

/-- A gap is passed over as a whole, and its line ends are counted. -/
theorem Skips.passes (h : lx.Skips mid) : ∃ gap, lx.rest = gap ++ mid.rest ∧
    lx.unread = Text.bytes gap ++ mid.unread ∧ mid.line = lx.line + gap.count '\n' := by
  cases h with
  | inside => exact ⟨[], rfl, rfl, rfl⟩
  | @gap gap rest hreported hrest hgap hstop =>
      exact ⟨gap, hrest, unread_text hreported rfl hrest, rfl⟩
  | @lineComment gap text hreported hrest hgap htext =>
      have hcount : (gap ++ '/' :: '/' :: text).count '\n' = gap.count '\n' := by
        simp [List.count_eq_zero.mpr htext]
      have hall : lx.rest = (gap ++ '/' :: '/' :: text) ++ [] := by rw [hrest, List.append_nil]
      exact ⟨_, hall, unread_text hreported rfl hall, congrArg (lx.line + ·) hcount.symm⟩

/-- No token starts with a line end. -/
theorem Skips.head_ne_newline (horderly : lx.Orderly) (h : lx.Skips mid) :
    ∀ c, mid.rest.head? = some c → c ≠ '\n' := by
  rintro c hc rfl
  cases h with
  | inside hreported =>
      have hlt := horderly.reported_lt _ hc
      have hsize : '\n'.utf8Size = 1 := rfl
      omega
  | gap _ _ _ hstop => exact hstop _ hc (.inr (.inr (.inr rfl)))
  | lineComment => exact absurd hc (by rintro ⟨⟩)

/-- The bytes that a token is taken from. There are some, and a line end is among them only
    if it stands in a string. -/
theorem Takes.passes (horderly : mid.Orderly) (hline : ∀ c, mid.rest.head? = some c → c ≠ '\n')
    (h : mid.Takes t next) : ∃ passed, mid.unread = passed ++ next.unread ∧
      (t.kind ≠ .endOfInput → passed ≠ []) ∧
      (Text.lineFeed ∈ passed ↔ ∃ body stop, StringAt mid.rest body stop ∧ '\n' ∈ body) := by
  -- Outside of strings there is no line end, and no string either.
  have hplain : ∀ {passed : List UInt8}, Text.lineFeed ∉ passed → ¬ Opens mid.rest →
      (Text.lineFeed ∈ passed ↔ ∃ body stop, StringAt mid.rest body stop ∧ '\n' ∈ body) :=
    fun hpassed hopens => iff_of_false hpassed
      fun ⟨_, _, hat, _⟩ => hopens hat.opens
  have hstring : ∀ {text body stop : List Char}, StringAt mid.rest body stop →
      ('\n' ∈ text ↔ '\n' ∈ body) →
      (Text.lineFeed ∈ Text.bytes text ↔
        ∃ body stop, StringAt mid.rest body stop ∧ '\n' ∈ body) := by
    intro text body stop hat htext
    rw [Text.lineFeed_mem_bytes, htext]
    refine ⟨fun hmem => ⟨body, stop, hat, hmem⟩, ?_⟩
    rintro ⟨body', stop', hat', hmem⟩
    rwa [(hat.unique hat').1]
  -- Only the cases of strings can have a line end in them, and only behind a backslash.
  cases h with
  | finish hrest =>
      refine ⟨[], rfl, fun h => absurd rfl h, hplain List.not_mem_nil ?_⟩
      exact fun hopens => not_opens_nil (hrest ▸ hopens)
  | lexeme hreported hrest hopens hkind hne htext =>
      exact ⟨_, unread_text hreported rfl hrest, fun _ => Text.bytes_ne_nil hne,
        hplain (fun h => htext (Text.lineFeed_mem_bytes.mp h)) hopens⟩
  | @string kind opening body rest hreported hrest hopening hbody =>
      have hat : StringAt mid.rest body ('"' :: rest) :=
        ⟨hbody, .quote rest, opening, hopening, hrest⟩
      have hall : mid.rest = (opening ++ (body ++ ['"'])) ++ rest := by
        rw [hrest, List.append_assoc, List.append_assoc, List.singleton_append]
      refine ⟨_, unread_text hreported rfl hall, fun _ => Text.bytes_ne_nil ?_, hstring hat ?_⟩
      · exact List.append_ne_nil_of_left_ne_nil hopening.ne_nil _
      · simp [hopening.no_newline]
  | @openString opening body stop hreported hrest hopening hbody hstop =>
      have hat : StringAt mid.rest body stop := by
        refine ⟨hbody, ?_, opening, hopening, hrest⟩
        rcases hstop with rfl | ⟨rest, rfl⟩
        · exact .endOfInput
        · exact .newline rest
      have hall : mid.rest = (opening ++ body) ++ stop := by rw [hrest, List.append_assoc]
      refine ⟨_, unread_text hreported rfl hall, fun _ => Text.bytes_ne_nil ?_, hstring hat ?_⟩
      · exact List.append_ne_nil_of_left_ne_nil hopening.ne_nil _
      · simp [hopening.no_newline]
  | @overrun opening body hreported hrest hopening hbody =>
      have hat : StringAt mid.rest body ['\\'] := ⟨hbody, .backslash, opening, hopening, hrest⟩
      have hall : mid.rest = (opening ++ (body ++ ['\\'])) ++ [] := by
        rw [hrest, List.append_nil]
      refine ⟨_, unread_text hreported rfl hall, fun _ => Text.bytes_ne_nil ?_, hstring hat ?_⟩
      · exact List.append_ne_nil_of_left_ne_nil hopening.ne_nil _
      · simp [hopening.no_newline]
  | badNumber hreported hrest hopens hne htext =>
      exact ⟨_, unread_text hreported rfl hrest, fun _ => Text.bytes_ne_nil hne,
        hplain (fun h => htext (Text.lineFeed_mem_bytes.mp h)) hopens⟩
  -- A byte that belongs to nothing is no line end, since a gap does not end before one.
  | @byte c rest hrest hopens =>
      rcases horderly.reportByte_unread hrest with ⟨byte, hbyte, hunread⟩
      refine ⟨[byte], hunread, fun _ => List.cons_ne_nil _ _, hplain (fun h => ?_) hopens⟩
      rw [← List.mem_singleton.mp h, Text.lineFeed_mem_utf8EncodeChar] at hbyte
      exact hline c (by rw [hrest]; rfl) hbyte

/-- A token has the line of the lexer that reads it, which does not change by it. -/
theorem Takes.line_eq (h : mid.Takes t next) : t.line = mid.line ∧ next.line = mid.line := by
  cases h with
  | byte => exact ⟨rfl, mid.reportByte_frame.1⟩
  | _ => exact ⟨rfl, rfl⟩

/-- What is left is an end of what was there. -/
theorem Takes.suffix (h : mid.Takes t next) : next.rest <:+ mid.rest := by
  cases h with
  | finish => exact List.suffix_refl _
  | lexeme _ hrest => exact ⟨_, hrest.symm⟩
  | @string kind opening body rest _ hrest =>
      exact ⟨opening ++ (body ++ ['"']), by rw [hrest]; simp [reading]⟩
  | @openString opening body stop _ hrest =>
      exact ⟨opening ++ body, by rw [hrest]; simp [reading]⟩
  | overrun => exact List.nil_suffix
  | badNumber _ hrest => exact ⟨_, hrest.symm⟩
  | byte => exact mid.reportByte_frame.2.2

/-- Skipping a gap does not leave the source. -/
theorem Skips.running (h : lx.Skips mid) (hrunning : lx.overrun = false) :
    mid.overrun = false := by
  cases h with
  | inside => exact hrunning
  | _ => rfl

/-- The cursor overruns the source exactly at an open string that ends with a backslash. -/
theorem Takes.overrun_iff (h : mid.Takes t next) (hrunning : mid.overrun = false) :
    next.overrun = true ↔ ∃ body, StringAt mid.rest body ['\\'] := by
  -- What is read has one end only, and if that is no backslash then the cursor stays.
  have hclosed : ∀ {lx : Lexer} {body stop : List Char}, lx.overrun = false →
      StringAt mid.rest body stop → stop ≠ ['\\'] →
      (lx.overrun = true ↔ ∃ body, StringAt mid.rest body ['\\']) :=
    fun hlx hat hstop => iff_of_false (by rw [hlx]; exact Bool.false_ne_true)
      fun ⟨_, hat'⟩ => hstop (hat.unique hat').2
  have hplain : ∀ {lx : Lexer}, lx.overrun = false → ¬ Opens mid.rest →
      (lx.overrun = true ↔ ∃ body, StringAt mid.rest body ['\\']) :=
    fun hlx hopens => iff_of_false (by rw [hlx]; exact Bool.false_ne_true)
      fun ⟨_, hat⟩ => hopens hat.opens
  cases h with
  | finish hrest => exact hplain hrunning fun hopens => not_opens_nil (hrest ▸ hopens)
  | lexeme _ _ hopens => exact hplain rfl hopens
  | @string kind opening body rest _ hrest hopening hbody =>
      exact hclosed rfl ⟨hbody, .quote rest, opening, hopening, hrest⟩ (by simp)
  | @openString opening body stop _ hrest hopening hbody hstop =>
      rcases hstop with rfl | ⟨rest, rfl⟩
      · exact hclosed rfl ⟨hbody, .endOfInput, opening, hopening, hrest⟩ (by simp)
      · exact hclosed rfl ⟨hbody, .newline rest, opening, hopening, hrest⟩ (by simp)
  | @overrun opening body _ hrest hopening hbody =>
      exact iff_of_true rfl ⟨body, hbody, .backslash, opening, hopening, hrest⟩
  | badNumber _ _ hopens => exact hplain rfl hopens
  | byte _ hopens => exact hplain (mid.reportByte_frame.2.1.trans hrunning) hopens

end Passing

section Calls

/-- The bytes that a call passes over: those of a gap and those that the token is taken
    from. Only the line ends of the gap are counted. -/
theorem scan_passes (horderly : lx.Orderly) (h : lx.scan = some (t, next)) :
    ∃ gap passed, lx.unread = Text.bytes gap ++ (passed ++ next.unread) ∧
      (t.kind ≠ .endOfInput → gap ≠ [] ∨ passed ≠ []) ∧
      t.line = lx.line + gap.count '\n' ∧ next.line = lx.line + gap.count '\n' ∧
      (Text.lineFeed ∈ passed ↔
        ∃ body stop, StringAt lx.behindGap.rest body stop ∧ '\n' ∈ body) := by
  rcases scan_cases horderly h with ⟨-, ⟨hcomment, hnil, rfl, rfl⟩ | ⟨hskips, htakes⟩⟩
  · -- All that is left is an open comment, and it counts as a gap.
    rcases hcomment with ⟨hreported, gap, text, -, -, hrest⟩
    refine ⟨lx.rest, [], ?_, fun _ => .inl ?_, rfl, rfl, iff_of_false List.not_mem_nil ?_⟩
    · rw [unread_eq hreported]
      exact (List.append_nil _).symm
    · rw [hrest]
      exact List.append_ne_nil_of_right_ne_nil _ (List.cons_ne_nil _ _)
    · rintro ⟨body, stop, hat, -⟩
      exact not_opens_nil (hnil ▸ hat.opens)
  -- Behind a gap, what was passed is the gap and the token together.
  · rcases hskips.passes with ⟨gap, -, hgap, hline⟩
    rcases htakes.passes (behindGap_orderly horderly) (hskips.head_ne_newline horderly)
      with ⟨passed, hpassed, hne, hmem⟩
    refine ⟨gap, passed, by rw [hgap, hpassed], fun hkind => .inr (hne hkind), ?_, ?_, hmem⟩
    · rw [htakes.line_eq.1, hline]
    · rw [htakes.line_eq.2, hline]

/-- Calls make progress, up to the end of the input. -/
theorem scan_unread_lt (horderly : lx.Orderly) (h : lx.scan = some (t, next))
    (hkind : t.kind ≠ .endOfInput) : next.unread.length < lx.unread.length := by
  rcases scan_passes horderly h with ⟨gap, passed, hunread, hne, -⟩
  have hpos : 0 < (Text.bytes gap).length + passed.length := by
    rcases hne hkind with hgap | hpassed
    · have := List.length_pos_iff.mpr (Text.bytes_ne_nil hgap)
      omega
    · have := List.length_pos_iff.mpr hpassed
      omega
  rw [hunread, List.length_append, List.length_append]
  omega

/-- What is left to read is the end of what was left to read. -/
theorem scan_suffix (horderly : lx.Orderly) (h : lx.scan = some (t, next)) :
    next.rest <:+ lx.rest := by
  rcases scan_cases horderly h with ⟨-, ⟨-, -, -, rfl⟩ | ⟨hskips, htakes⟩⟩
  · exact List.nil_suffix
  · rcases hskips.passes with ⟨gap, hgap, -⟩
    exact htakes.suffix.trans ⟨gap, hgap.symm⟩

/-- The calls that take the cursor out of the source. -/
theorem scan_overrun_iff (horderly : lx.Orderly) (h : lx.scan = some (t, next)) :
    next.overrun = true ↔ lx.LeavesString := by
  rcases scan_cases horderly h with ⟨hrunning, ⟨-, hnil, -, rfl⟩ | ⟨hskips, htakes⟩⟩
  · exact iff_of_false Bool.false_ne_true fun ⟨_, hat⟩ => not_opens_nil (hnil ▸ hat.opens)
  · exact htakes.overrun_iff (hskips.running hrunning)

end Calls

section Ends

/-- A token that is no fault has its text in front of the cursor, and the cursor moves behind
    it. No bytes are reported on either side. -/
theorem Takes.text (horderly : mid.Orderly) (hrunning : mid.overrun = false)
    (h : mid.Takes t next) (hkind : ∀ why, t.kind ≠ .fault why) :
    mid.reported = 0 ∧ next.reported = 0 ∧ next.overrun = false ∧
      mid.rest = t.text.toList ++ next.rest := by
  cases h with
  | finish hrest =>
      exact ⟨horderly.reported_nil hrest, horderly.reported_nil hrest, hrunning, rfl⟩
  | lexeme hreported hrest => exact ⟨hreported, rfl, rfl, hrest⟩
  | @string kind opening body rest hreported hrest =>
      refine ⟨hreported, rfl, rfl, ?_⟩
      rw [hrest, String.toList_ofList, List.append_assoc, List.append_assoc]
      rfl
  | _ => exact absurd rfl (hkind _)

/-- A token for the end of the input comes at the end of the source only. -/
theorem Takes.at_end (h : mid.Takes t next) (hkind : t.kind = .endOfInput) :
    next = mid ∧ mid.rest = [] := by
  cases h with
  | finish hrest => exact ⟨rfl, hrest⟩
  | lexeme _ _ _ htext => exact absurd hkind htext.1
  | string _ _ _ _ hstring =>
      rcases hstring with rfl | rfl <;> exact absurd hkind (by rintro ⟨⟩)
  | _ => exact absurd hkind (by rintro ⟨⟩)

theorem scan_end (line : Nat) :
    (reading [] line).scan = some (⟨.endOfInput, "", line⟩, reading [] line) := rfl

/-- The end is never left. -/
theorem after_end (line : Nat) : ∀ n, (reading [] line).after n = some (reading [] line)
  | 0 => rfl
  | n + 1 => by
      rw [after, scan_end]
      exact after_end line n

/-- Behind the token for the end of the input nothing is left, and no byte is reported. -/
theorem next_of_endOfInput (horderly : lx.Orderly) (h : lx.scan = some (t, next))
    (hkind : t.kind = .endOfInput) : next = reading [] next.line := by
  have hnext := scan_orderly horderly h
  rcases scan_cases horderly h with ⟨hrunning, ⟨-, -, rfl, -⟩ | ⟨hskips, htakes⟩⟩
  · exact absurd hkind (by rintro ⟨⟩)
  · have hover := hskips.running hrunning
    rcases htakes.at_end hkind with ⟨rfl, hrest⟩
    have hreported := hnext.reported_nil hrest
    generalize lx.behindGap = mid at hover hrest hreported
    rcases mid with ⟨rest, reported, overrun, line⟩
    obtain rfl : rest = [] := hrest
    obtain rfl : reported = 0 := hreported
    obtain rfl : overrun = false := hover
    rfl

end Ends

section Runs

/-- One call more. -/
theorem after_succ {n : Nat} (h : lx.after n = some mid) (hscan : mid.scan = some (t, next)) :
    lx.after (n + 1) = some next := by
  induction n generalizing lx with
  | zero =>
      obtain rfl : lx = mid := Option.some.inj h
      rw [after, hscan]
      rfl
  | succ n ih =>
      rw [after] at h ⊢
      cases hfirst : lx.scan with
      | none =>
          rw [hfirst] at h
          exact absurd h (by rintro ⟨⟩)
      | some first =>
          rw [hfirst] at h
          exact ih h

/-- What calls keep: the state is orderly, and what is left to read is the end of what was
    there in the beginning. -/
theorem after_orderly {n : Nat} (horderly : lx.Orderly) (h : lx.after n = some mid) :
    mid.Orderly ∧ mid.rest <:+ lx.rest := by
  induction n generalizing lx with
  | zero =>
      obtain rfl : lx = mid := Option.some.inj h
      exact ⟨horderly, List.suffix_refl _⟩
  | succ n ih =>
      rw [after] at h
      cases hfirst : lx.scan with
      | none =>
          rw [hfirst] at h
          exact absurd h (by rintro ⟨⟩)
      | some first =>
          rw [hfirst] at h
          rcases ih (scan_orderly horderly hfirst) h with ⟨hmid, hsuffix⟩
          exact ⟨hmid, hsuffix.trans (scan_suffix horderly hfirst)⟩

/-- The cursor stands where the unread bytes begin. -/
theorem take_position {source : String} (horderly : lx.Orderly)
    (hsuffix : lx.rest <:+ source.toList) :
    (Text.bytes source.toList).take (lx.position source) ++ lx.unread
      = Text.bytes source.toList := by
  rcases hsuffix with ⟨read, hread⟩
  have hsplit : Text.bytes source.toList
      = (Text.bytes read ++ (Text.bytes lx.rest).take lx.reported) ++ lx.unread := by
    rw [← hread, Text.bytes_append, List.append_assoc, unread, List.take_append_drop]
  rw [position, ← Text.length_bytes]
  cases hover : lx.overrun with
  | false =>
      rw [hsplit, List.length_append, Nat.add_sub_cancel, Bool.toNat_false, Nat.add_zero,
        List.take_left]
  | true =>
      have hnone : lx.unread = [] := by rw [unread, horderly.rest_nil hover]; exact List.drop_nil
      rw [hnone, List.append_nil]
      exact List.take_of_length_le (Nat.le_succ _)

/-- A cursor at a character stands behind the bytes of what was read. -/
theorem position_eq {source : String} {before : List Char} (hreported : lx.reported = 0)
    (hrunning : lx.overrun = false) (h : source.toList = before ++ lx.rest) :
    lx.position source = (Text.bytes before).length := by
  rw [position, unread_eq hreported, hrunning, ← Text.length_bytes, h, Text.bytes_append,
    List.length_append]
  exact Nat.add_sub_cancel _ _

-- By induction on the number of unread bytes, which the first call makes smaller.
/-- If no call takes the cursor out of the source then every call has a token, and from one
    of them on it is the one for the end of the input. -/
theorem reaches_end (horderly : lx.Orderly) (hrunning : lx.overrun = false)
    (hstays : ∀ n mid, lx.after n = some mid → ¬ mid.LeavesString) :
    ∃ k ≤ lx.unread.length, ∀ n, ∃ mid t next, lx.after n = some mid ∧
      mid.scan = some (t, next) ∧ next.overrun = false ∧ (t.kind = .endOfInput ↔ k ≤ n) := by
  -- The induction is on the number of bytes that are left, since each call up to the end takes
  -- some.
  induction hlength : lx.unread.length using Nat.strong_induction_on generalizing lx with
  | _ length ih =>
      rcases exists_scan hrunning with ⟨t, next, hscan⟩
      by_cases hkind : t.kind = .endOfInput
      · -- The end of the input is reached at once, and every later call repeats it.
        refine ⟨0, Nat.zero_le _, fun n => ?_⟩
        have hend := next_of_endOfInput horderly hscan hkind
        cases n with
        | zero =>
            exact ⟨lx, t, next, rfl, hscan, by rw [hend]; rfl, iff_of_true hkind (Nat.le_refl 0)⟩
        | succ n =>
            have hafter := after_end next.line n
            refine ⟨_, _, _, ?_, scan_end next.line, rfl, iff_of_true rfl (Nat.zero_le _)⟩
            rw [after, hscan]
            exact hend ▸ hafter
      · -- The later calls are those of the lexer behind the first one.
        have hlt := scan_unread_lt horderly hscan hkind
        have hover : next.overrun = false := Bool.eq_false_iff.mpr fun h =>
          hstays 0 lx rfl ((scan_overrun_iff horderly hscan).mp h)
        have hnext : ∀ n, lx.after (n + 1) = next.after n := fun n => by rw [after, hscan]
        rcases ih next.unread.length (hlength ▸ hlt) (scan_orderly horderly hscan) hover
          (fun n mid h => hstays (n + 1) mid ((hnext n).trans h)) rfl with ⟨k, hk, hcalls⟩
        refine ⟨k + 1, by omega, fun n => ?_⟩
        cases n with
        | zero => exact ⟨lx, t, next, rfl, hscan, hover, iff_of_false hkind (by omega)⟩
        | succ n =>
            rcases hcalls n with ⟨mid, t', next', hmid, hscan', hover', hiff⟩
            exact ⟨mid, t', next', (hnext n).trans hmid, hscan', hover', hiff.trans (by omega)⟩

/-- Behind the end of the source there is no call. -/
theorem scan_overrun (h : lx.overrun = true) : lx.scan = none := if_pos h

/-- The tokens of a source come one by one from the calls. -/
theorem exists_after_of_scanAll {fuel n : Nat} (h : (scanAll fuel lx)[n]? = some t) :
    ∃ mid next, lx.after n = some mid ∧ mid.scan = some (t, next) := by
  -- The list of all tokens calls the lexer again and again, up to the end.
  induction fuel generalizing lx n with
  | zero => exact absurd h (by rintro ⟨⟩)
  | succ fuel ih =>
      rw [scanAll] at h
      cases hscan : lx.scan with
      | none =>
          rw [hscan] at h
          exact absurd h (by rintro ⟨⟩)
      | some first =>
          rcases first with ⟨t', next⟩
          rw [hscan] at h
          dsimp only at h
          cases n with
          | zero =>
              refine ⟨lx, next, rfl, ?_⟩
              split at h <;> exact Option.some.inj h ▸ hscan
          | succ n =>
              split at h
              · exact absurd h (by rintro ⟨⟩)
              · rcases ih h with ⟨mid, last, hmid, hlast⟩
                refine ⟨mid, last, ?_, hlast⟩
                rw [after, hscan]
                exact hmid

end Runs

end Lexer

section Cursor

open Lexer

theorem orderly_ofChars (cs : List Char) : (Lexer.ofChars cs).Orderly := orderly_reading cs 1

/-- A token is cut out of the source between the position behind the gap and the one where
    the cursor comes to stand. -/
theorem cut_of_scan {source : String} {n : Nat} {lx next : Lexer} {t : Token}
    (hlx : (Lexer.ofChars source.toList).after n = some lx) (h : lx.scan = some (t, next))
    (hkind : ∀ why, t.kind ≠ .fault why) :
    next.position source ≤ source.utf8ByteSize ∧
      Cut source (lx.behindGap.position source) (next.position source) t.text := by
  rcases after_orderly (orderly_ofChars _) hlx with ⟨horderly, read, hread⟩
  rcases scan_cases horderly h with ⟨hrunning, ⟨-, -, rfl, -⟩ | ⟨hskips, htakes⟩⟩
  · exact absurd rfl (hkind _)
  · have hover := hskips.running hrunning
    rcases hskips.passes with ⟨gap, hgap, -⟩
    rcases htakes.text (behindGap_orderly horderly) hover hkind
      with ⟨hreported, hreported', hover', htext⟩
    -- Both positions are at characters, so they are sums of bytes of what was read.
    have hstart : source.toList = (read ++ gap) ++ lx.behindGap.rest := by
      rw [List.append_assoc, ← hgap]
      exact hread.symm
    have hstop : source.toList = (read ++ gap ++ t.text.toList) ++ next.rest := by
      rw [hstart, htext]
      exact (List.append_assoc _ _ _).symm
    rw [position_eq hreported hover hstart, position_eq hreported' hover' hstop]
    refine ⟨?_, cut_of_append (hstart.trans (congrArg (read ++ gap ++ ·) htext))⟩
    rw [← Text.length_bytes, hstop, Text.bytes_append _ next.rest, List.length_append]
    exact Nat.le_add_right _ _

/-- Tokens are cut out of the source, between positions in it at which characters start. And
    unless a call takes the cursor out of the source, it stays inside, every call has a
    token, and after at most as many calls as the source has bytes this is the one for the
    end of the input. -/
theorem cursor_stays_inside (source : String) :
    (∀ n lx t next, (Lexer.ofChars source.toList).after n = some lx →
      lx.scan = some (t, next) → (∀ why, t.kind ≠ .fault why) →
        next.position source ≤ source.utf8ByteSize ∧
          Cut source (lx.behindGap.position source) (next.position source) t.text) ∧
    ((∃ k ≤ source.utf8ByteSize, ∀ n, ∃ lx t next,
        (Lexer.ofChars source.toList).after n = some lx ∧ lx.scan = some (t, next) ∧
          next.position source ≤ source.utf8ByteSize ∧ (t.kind = .endOfInput ↔ k ≤ n)) ↔
      ∀ n lx, (Lexer.ofChars source.toList).after n = some lx → ¬ lx.LeavesString) := by
  have hstart := orderly_ofChars source.toList
  refine ⟨fun n lx t next hlx h hkind => cut_of_scan hlx h hkind, ?_, fun hstays => ?_⟩
  · -- A call that leaves the source would be followed by one without a token.
    rintro ⟨k, -, hcalls⟩ n lx hlx hleaves
    rcases hcalls n with ⟨lx', t, next, hlx', hscan, -⟩
    obtain rfl : lx = lx' := Option.some.inj (hlx.symm.trans hlx')
    have hover := (scan_overrun_iff (after_orderly hstart hlx).1 hscan).mpr hleaves
    rcases hcalls (n + 1) with ⟨lx', t', next', hlx', hscan', -⟩
    obtain rfl : next = lx' := Option.some.inj ((after_succ hlx hscan).symm.trans hlx')
    exact absurd (hscan'.symm.trans (scan_overrun hover)) (by rintro ⟨⟩)
  -- The bound on the bytes gives that on the calls.
  · rcases reaches_end hstart rfl hstays with ⟨k, hk, hcalls⟩
    refine ⟨k, Nat.le_trans hk ?_, fun n => ?_⟩
    · rw [unread_eq rfl, ← Text.length_bytes]
      exact Nat.le_refl _
    · rcases hcalls n with ⟨lx, t, next, hlx, hscan, hover, hiff⟩
      refine ⟨lx, t, next, hlx, hscan, ?_, hiff⟩
      rw [position, hover]
      exact Nat.sub_le _ _

/-- A character of two bytes is cut out of the source as a whole. -/
theorem cursor_stays_inside_accented : ∃ lx t next,
    (Lexer.ofChars "x \"é\"".toList).after 1 = some lx ∧ lx.scan = some (t, next) ∧
      t = ⟨.string, "\"é\"", 1⟩ ∧ Cut "x \"é\"" 2 6 t.text := by
  have hcut := (cursor_stays_inside "x \"é\"").1 1 ⟨" \"é\"".toList, 0, false, 1⟩
    ⟨.string, "\"é\"", 1⟩ ⟨[], 0, false, 1⟩ rfl rfl fun _ => by rintro ⟨⟩
  exact ⟨_, _, _, rfl, rfl, rfl, hcut.2⟩

/-- An open string that ends with a backslash takes the cursor out of the source, and then
    there is no token for the end of the input. -/
theorem backslash_leads_out : ∃ lx, (Lexer.ofChars "\"\\".toList).after 1 = some lx ∧
    lx.position "\"\\" = 3 ∧ "\"\\".utf8ByteSize = 2 ∧ lx.scan = none :=
  ⟨⟨[], 0, true, 1⟩, rfl, rfl, rfl, rfl⟩

end Cursor

end YulToolchain
