import MitScheme.Runtime.QuotedPrintable

/-!
# Packets of quoted-printable

What `decode-quoted-printable:update` does with a packet, against what it does with its characters one
at a time. The two agree unless an illegal escape has more on its line, or white space comes before the
end of a line: there the decoder sees more of the line in a long packet than in a short one.
-/

namespace MitScheme.QuotedPrintable

open DecodingContext List DecodingContext

/-- What a character comes after. -/
inductive Place where
  | clear
  | lwsp
  | equals
  | digit
deriving DecidableEq

/-- What the next character comes after. -/
def Place.next (place : Place) (char : Char) : Place :=
  if char = '\n' then .clear
  else
    match place with
    | .equals => if (charToDigit char).isSome then .digit else .clear
    | .digit => .clear
    | _ => if charLwsp char then .lwsp else if char = '=' then .equals else .clear

/-- What a character may be, if it is to mean the same in every packet: a digit if it comes after an
equals sign, or the last on its line but for white space, and a digit if it comes after the first digit
of an escape. White space does not end a line. -/
def Place.Allows (place : Place) (char : Char) (rest : List Char) : Prop :=
  char = '\n' ∨
    match place with
    | .clear => charLwsp char = true → (rest.dropWhile charLwsp).head? ≠ some '\n'
    | .lwsp => True
    | .equals => (charToDigit char).isSome = true ∨
        charLwsp char = false ∧ ∀ c ∈ rest.takeWhile (· ≠ '\n'), charLwsp c = true
    | .digit => (charToDigit char).isSome = true

/-- Every character of a string is allowed where it stands. -/
def Regular : Place → List Char → Prop
  | _, [] => True
  | place, char :: rest => place.Allows char rest ∧ Regular (place.next char) rest

/-- What the next character of a decoder comes after. -/
def DecodingContext.place (d : DecodingContext) : Place :=
  match d.pending with
  | none => .clear
  | some (.string _) => .lwsp
  | some (.char char) => if char = '=' then .equals else .digit

variable {d d' : DecodingContext} {char : Char} {chars rest : List Char} {type : LineType}

theorem not_qpEncoded_of_lwsp (h : charLwsp char = true) : qpEncoded char = false := by
  have hspace : char = ' ' ∨ char = '\t' := by
    rw [charLwsp] at h
    simpa using h
  rcases hspace with rfl | rfl <;> decide

theorem not_digit_of_lwsp (h : charLwsp char = true) : charToDigit char = none := by
  have hspace : char = ' ' ∨ char = '\t' := by
    rw [charLwsp] at h
    simpa using h
  rcases hspace with rfl | rfl <;> decide

theorem ne_equals_of_digit (h : (charToDigit char).isSome = true) : char ≠ '=' := by
  intro heq
  rw [heq] at h
  exact absurd h (by decide)

theorem decodeQpHex_error {c1 c2 : Char} (h : charToDigit c1 = none ∨ charToDigit c2 = none) :
    decodeQpHex c1 c2 = .error .notFixnum := by
  unfold decodeQpHex
  rcases h with h | h
  · rw [h]
  · rw [h]
    cases charToDigit c1 <;> rfl

theorem skipLwspBackwards_cons (char : Char) (chars : List Char) :
    skipLwspBackwards (char :: chars)
      = if skipLwspBackwards chars = [] ∧ charLwsp char = true then []
        else char :: skipLwspBackwards chars := by
  unfold skipLwspBackwards List.rdropWhile
  rw [reverse_cons, dropWhile_append]
  by_cases hrest : chars.reverse.dropWhile charLwsp = []
  · cases h : charLwsp char <;> simp [hrest, h]
  · simp [hrest]

theorem rtakeWhile_cons (char : Char) (chars : List Char) :
    (char :: chars).rtakeWhile charLwsp
      = if skipLwspBackwards chars = [] ∧ charLwsp char = true then char :: chars
        else chars.rtakeWhile charLwsp := by
  have happend := @List.rdropWhile_append_rtakeWhile _ charLwsp (char :: chars)
  have happend' := @List.rdropWhile_append_rtakeWhile _ charLwsp chars
  change skipLwspBackwards (char :: chars) ++ _ = _ at happend
  rw [skipLwspBackwards_cons] at happend
  split
  · rename_i h
    rw [if_pos h] at happend
    exact happend
  · rename_i h
    rw [if_neg h, cons_append, List.cons.injEq] at happend
    exact append_cancel_left (happend.2.trans happend'.symm)

theorem skipLwspBackwards_eq_nil :
    skipLwspBackwards chars = [] ↔ ∀ c ∈ chars, charLwsp c = true :=
  rdropWhile_eq_nil_iff

theorem rtakeWhile_of_skip (h : skipLwspBackwards chars = []) : chars.rtakeWhile charLwsp = chars :=
  rtakeWhile_eq_self_iff.mpr (skipLwspBackwards_eq_nil.mp h)

/-! ## Lines -/

theorem resume_nil (d : DecodingContext) : d.resume [] = .ok d := by
  obtain ⟨port, pending⟩ := d
  rcases pending with - | ⟨char⟩ | ⟨string⟩ <;> rfl

theorem finish_lineEnd (d : DecodingContext) (lwsp lwsp' : List Char) :
    d.finish lwsp .lineEnd = d.finish lwsp' .lineEnd := rfl

theorem decodeQp_eq (d : DecodingContext) (chars : List Char) (type : LineType) :
    d.decodeQp chars type
      = (d.resume (skipLwspBackwards chars)).bind fun d =>
          d.finish (chars.rtakeWhile charLwsp) type := rfl

theorem decodeQp_nil_packetEnd (d : DecodingContext) : d.decodeQp [] .partialLine = .ok d := by
  change (d.resume []).bind _ = _
  rw [resume_nil]
  rfl

theorem decodeQp_skip (d : DecodingContext) (chars : List Char) :
    d.decodeQp (skipLwspBackwards chars) .lineEnd = d.decodeQp chars .lineEnd := by
  rw [decodeQp_eq]
  have hskip : skipLwspBackwards (skipLwspBackwards chars) = skipLwspBackwards chars :=
    rdropWhile_idempotent charLwsp chars
  rw [hskip]
  rfl

theorem updateLines_packetEnd {line : List Char} (h : '\n' ∉ chars) :
    d.updateLines line chars = d.decodeQp (line ++ chars) .partialLine := by
  induction chars generalizing line with
  | nil => rw [updateLines, append_nil]
  | cons char rest ih =>
      rw [mem_cons, not_or] at h
      rw [updateLines, if_neg (Ne.symm h.1), ih h.2, append_assoc]
      rfl

theorem updateLines_lineEnd {line : List Char} (h : '\n' ∉ chars) :
    d.updateLines line (chars ++ '\n' :: rest)
      = (d.decodeQp (line ++ chars) .lineEnd).bind fun d => d.update rest := by
  induction chars generalizing line with
  | nil =>
      rw [nil_append, updateLines, decodeQp_skip, append_nil]
      rfl
  | cons char chars ih =>
      rw [mem_cons, not_or] at h
      rw [cons_append, updateLines, if_neg (Ne.symm h.1), ih h.2,
        append_assoc]
      rfl

theorem update_newline (d : DecodingContext) : d.update ['\n'] = d.finish [] .lineEnd := by
  have hlines := @updateLines_lineEnd d [] [] [] not_mem_nil
  change d.update ['\n'] = _ at hlines
  change ((d.resume []).bind _).bind _ = _
  rw [resume_nil]
  change (d.finish [] .lineEnd).bind _ = _
  cases d.finish [] .lineEnd with
  | error e => rfl
  | ok d => exact decodeQp_nil_packetEnd d

theorem update_singleton (h : char ≠ '\n') : d.update [char] = d.decodeQp [char] .partialLine :=
  updateLines_packetEnd (by simpa using h.symm)

theorem update_lwsp (h : charLwsp char = true) : d.update [char] = d.finish [char] .partialLine := by
  have hne : char ≠ '\n' := by
    intro heq
    rw [heq] at h
    exact absurd h (by decide)
  have hskip : skipLwspBackwards [char] = [] := skipLwspBackwards_eq_nil.mpr (by simpa using h)
  rw [update_singleton hne, decodeQp_eq, hskip, rtakeWhile_of_skip hskip, resume_nil]
  rfl

theorem update_char (hne : char ≠ '\n') (h : charLwsp char = false) :
    d.update [char] = d.resume [char] := by
  have hskip : skipLwspBackwards [char] = [char] := by
    rw [skipLwspBackwards_cons, if_neg (by simp [h])]
    rfl
  have hlwsp : [char].rtakeWhile charLwsp = [] := by
    rw [rtakeWhile_cons, if_neg (by simp [h])]
    rfl
  rw [update_singleton hne, decodeQp_eq, hskip, hlwsp]
  cases d.resume [char] <;> rfl

/-! ## One character, and the rest of the line -/

theorem loop_cons (port : List Char) (char : Char) (rest : List Char) :
    loop ⟨port, none⟩ (char :: rest)
      = (loop ⟨port, none⟩ [char]).bind fun d => d.resume rest := by
  rw [loop, loop]
  cases hencoded : qpEncoded char with
  | false =>
      rfl
  | true =>
      by_cases hequals : char = '='
      · simp only [if_true, hequals, handleEquals]
        cases rest <;> rfl
      · simp only [if_true, hequals, if_false, loop]
        rfl

theorem resume_cons (hallows : d.place = .equals → (charToDigit char).isSome = true ∨ rest = []) :
    d.resume (char :: rest) = (d.resume [char]).bind fun d => d.resume rest := by
  obtain ⟨port, pending⟩ := d
  rcases pending with - | ⟨pending⟩ | ⟨string⟩
  · exact loop_cons port char rest
  · by_cases hequals : pending = '='
    · subst hequals
      rcases hallows rfl with hdigit | rfl
      · have hne := ne_equals_of_digit hdigit
        have hone : resume ⟨port, some (.char '=')⟩ [char]
            = .ok ⟨port, some (.char char)⟩ := by
          simp only [resume, if_true, handleEquals, hdigit]
        rw [hone]
        cases rest with
        | nil => rw [hone]; exact (resume_nil _).symm
        | cons c2 rest =>
            change handleEquals ⟨port, none⟩ (char :: c2 :: rest)
              = resume ⟨port, some (.char char)⟩ (c2 :: rest)
            rw [handleEquals]
            unfold resume
            simp only
            rw [if_neg hne]
      · cases resume ⟨port, some (.char '=')⟩ [char] with
        | error e => rfl
        | ok d => exact (resume_nil d).symm
    · simp only [resume, if_neg hequals]
      cases decodeQpHex pending char with
      | error e => rfl
      | ok decoded =>
          rfl
  · exact loop_cons (port ++ string) char rest

theorem resume_lwsp (hlwsp : charLwsp char = true) (hplace : d.place = .clear ∨ d.place = .lwsp)
    (hrest : rest ≠ []) :
    d.resume (char :: rest) = (d.finish [char] .partialLine).bind fun d => d.resume rest := by
  obtain ⟨c2, rest, rfl⟩ := exists_cons_of_ne_nil hrest
  have hclear := not_qpEncoded_of_lwsp hlwsp
  obtain ⟨port, pending⟩ := d
  rcases pending with - | ⟨pending⟩ | ⟨string⟩
  · simp only [resume, finish, decodeQpPendingString]
    rw [loop, hclear]
    rfl
  · rw [place] at hplace
    simp only at hplace
    split at hplace <;> simp at hplace
  · simp only [resume, finish, decodeQpPendingString]
    rw [loop, hclear]
    simp [write, bind, Except.bind]

theorem finish_lwsp (hplace : d.place = .clear ∨ d.place = .lwsp) (htype : type ≠ .inputEnd)
    (hline : d.place = .clear → type ≠ .lineEnd) :
    d.finish (char :: chars) type
      = (d.finish [char] .partialLine).bind fun d => d.finish chars type := by
  obtain ⟨port, pending⟩ := d
  rcases pending with - | ⟨pending⟩ | ⟨string⟩
  · have hupTo : type = .partialLine := by
      cases type with
      | lineEnd => exact absurd rfl (hline rfl)
      | partialLine => rfl
      | inputEnd => exact absurd rfl htype
    subst hupTo
    cases chars <;> rfl
  · rw [place] at hplace
    simp only at hplace
    split at hplace <;> simp at hplace
  · cases type with
    | lineEnd => rfl
    | partialLine =>
        cases chars with
        | nil => rfl
        | cons c chars => simp [finish, decodeQpPendingString, bind, Except.bind]
    | inputEnd => exact absurd rfl htype

theorem decodeQp_cons (hne : char ≠ '\n') (htype : type ≠ .inputEnd)
    (hallows : match d.place with
      | .clear => charLwsp char = true → (∀ c ∈ chars, charLwsp c = true) → type ≠ .lineEnd
      | .lwsp => True
      | .equals => (charToDigit char).isSome = true ∨
          charLwsp char = false ∧ ∀ c ∈ chars, charLwsp c = true
      | .digit => (charToDigit char).isSome = true) :
    d.decodeQp (char :: chars) type = (d.update [char]).bind fun d => d.decodeQp chars type := by
  have hwhite : charLwsp char = true → d.place = .clear ∨ d.place = .lwsp := by
    intro hlwsp
    have hdigit := not_digit_of_lwsp hlwsp
    cases hplace : d.place with
    | clear => exact Or.inl rfl
    | lwsp => exact Or.inr rfl
    | equals => simp [hplace, hlwsp, hdigit] at hallows
    | digit => simp [hplace, hdigit] at hallows
  simp only [decodeQp_eq]
  rw [skipLwspBackwards_cons, rtakeWhile_cons]
  cases hlwsp : charLwsp char with
  | false =>
      rw [if_neg (by simp), if_neg (by simp), update_char hne hlwsp, resume_cons]
      · cases d.resume [char] <;> rfl
      · intro hplace
        rw [hplace] at hallows
        rcases hallows with hdigit | ⟨-, hall⟩
        · exact Or.inl hdigit
        · exact Or.inr (skipLwspBackwards_eq_nil.mpr hall)
  | true =>
      rw [update_lwsp hlwsp]
      by_cases hskip : skipLwspBackwards chars = []
      · rw [if_pos ⟨hskip, rfl⟩, hskip, rtakeWhile_of_skip hskip, resume_nil]
        have hfinish := @finish_lwsp d char chars type (hwhite hlwsp) htype (by
          intro hplace
          rw [hplace] at hallows
          exact hallows hlwsp (skipLwspBackwards_eq_nil.mp hskip))
        change d.finish (char :: chars) type = _
        rw [hfinish]
        simp only [resume_nil]
        rfl
      · rw [if_neg (fun h => hskip h.1), if_neg (fun h => hskip h.1),
          resume_lwsp hlwsp (hwhite hlwsp) hskip]
        cases d.finish [char] .partialLine <;> rfl

theorem exists_line (chars : List Char) :
    '\n' ∉ chars ∨ ∃ line rest, '\n' ∉ line ∧ chars = line ++ '\n' :: rest := by
  by_cases h : '\n' ∈ chars
  · right
    obtain ⟨line, rest, heq, hline⟩ := eq_append_cons_of_mem h
    exact ⟨line, rest, hline, heq⟩
  · exact Or.inl h

theorem takeWhile_line {line : List Char} (h : '\n' ∉ line) (rest : List Char) :
    (line ++ '\n' :: rest).takeWhile (· ≠ '\n') = line := by
  have hline : ∀ c ∈ line, decide (c ≠ '\n') = true := by
    intro c hc
    rw [decide_eq_true_eq]
    exact fun heq => h (heq ▸ hc)
  rw [takeWhile_append_of_pos hline]
  simp

theorem dropWhile_line {line : List Char} (h : ∀ c ∈ line, charLwsp c = true) (rest : List Char) :
    (line ++ '\n' :: rest).dropWhile charLwsp = '\n' :: rest := by
  rw [dropWhile_append_of_pos h]
  rfl

/-- **A packet, and its first character.** -/
theorem update_cons (h : d.place.Allows char rest) :
    d.update (char :: rest) = (d.update [char]).bind fun d => d.update rest := by
  by_cases hne : char = '\n'
  · subst hne
    rw [update_newline]
    have hlines := @updateLines_lineEnd d [] rest [] not_mem_nil
    change d.update ('\n' :: rest) = (d.decodeQp [] .lineEnd).bind _ at hlines
    change ((d.resume []).bind _).bind _ = _
    rw [resume_nil]
    rfl
  · have hallows := h.resolve_left hne
    rcases exists_line rest with hrest | ⟨line, rest, hline, rfl⟩
    · -- the packet ends within the line
      have hmem : '\n' ∉ char :: rest := by
        rw [mem_cons, not_or]
        exact ⟨Ne.symm hne, hrest⟩
      have htake : rest.takeWhile (· ≠ '\n') = rest := by
        rw [takeWhile_eq_self_iff]
        intro c hc
        rw [decide_eq_true_eq]
        exact fun heq => hrest (heq ▸ hc)
      have hwhole := @updateLines_packetEnd d _ [] hmem
      change d.update (char :: rest) = d.decodeQp (char :: rest) .partialLine at hwhole
      have htail := fun d' => @updateLines_packetEnd d' _ [] hrest
      change ∀ d' : DecodingContext, d'.update rest = d'.decodeQp rest .partialLine at htail
      rw [hwhole, @decodeQp_cons d char rest .partialLine hne nofun]
      · simp only [htail]
      · cases hplace : d.place with
        | clear => exact fun _ _ => nofun
        | lwsp => trivial
        | equals =>
            rw [hplace] at hallows
            simp only [htake] at hallows
            exact hallows
        | digit =>
            rw [hplace] at hallows
            exact hallows
    · have hmem : '\n' ∉ char :: line := by
        rw [mem_cons, not_or]
        exact ⟨Ne.symm hne, hline⟩
      have hwhole := @updateLines_lineEnd d _ rest [] hmem
      change d.update (char :: (line ++ '\n' :: rest))
        = (d.decodeQp (char :: line) .lineEnd).bind _ at hwhole
      have htail := fun d' => @updateLines_lineEnd d' _ rest [] hline
      change ∀ d' : DecodingContext, d'.update (line ++ '\n' :: rest)
        = (d'.decodeQp line .lineEnd).bind _ at htail
      rw [hwhole, @decodeQp_cons d char line .lineEnd hne nofun]
      · simp only [htail]
        cases d.update [char] <;> rfl
      · cases hplace : d.place with
        | clear =>
            rw [hplace] at hallows
            intro hlwsp hall
            refine absurd ?_ (hallows hlwsp)
            rw [dropWhile_line hall]
            rfl
        | lwsp => trivial
        | equals =>
            rw [hplace] at hallows
            simp only [takeWhile_line hline] at hallows
            exact hallows
        | digit =>
            rw [hplace] at hallows
            exact hallows

/-! ## Strings -/

/-- What is pending after an equals sign is a digit. -/
def DecodingContext.Waits (d : DecodingContext) : Prop :=
  ∀ char, d.pending = some (.char char) → char = '=' ∨ (charToDigit char).isSome = true

theorem loop_singleton (port : List Char) (char : Char) :
    loop ⟨port, none⟩ [char]
      = .ok (if char = '=' then ⟨port, some (.char '=')⟩
          else if qpEncoded char then ⟨port, none⟩ else ⟨port ++ [char], none⟩) := by
  rw [loop]
  by_cases hequals : char = '='
  · subst hequals
    rfl
  · cases hencoded : qpEncoded char with
    | false =>
        simp only [Bool.false_eq_true, if_false, if_neg hequals, loop]
        rfl
    | true => simp only [if_true, if_neg hequals, loop]

theorem update_place (hupdate : d.update [char] = .ok d') :
    d'.place = d.place.next char ∧ d'.Waits := by
  have hloop : ∀ port, char ≠ '\n' → charLwsp char = false →
      loop ⟨port, none⟩ [char] = .ok d' →
      d'.place = (if char = '=' then .equals else .clear) ∧ d'.Waits := by
    intro port hne hlwsp hd'
    rw [loop_singleton, Except.ok.injEq] at hd'
    subst hd'
    by_cases hequals : char = '='
    · subst hequals
      exact ⟨rfl, fun c hc => by cases hc; exact Or.inl rfl⟩
    · rw [if_neg hequals]
      split <;> exact ⟨rfl, nofun⟩
  obtain ⟨port, pending⟩ := d
  by_cases hne : char = '\n'
  · subst hne
    rw [update_newline] at hupdate
    rcases pending with - | ⟨pending⟩ | ⟨string⟩
    · cases hupdate
      exact ⟨rfl, nofun⟩
    · by_cases hequals : pending = '='
      · subst hequals
        cases hupdate
        exact ⟨rfl, nofun⟩
      · simp only [finish, if_neg hequals] at hupdate
        cases hupdate
        exact ⟨rfl, nofun⟩
    · cases hupdate
      exact ⟨rfl, nofun⟩
  · cases hlwsp : charLwsp char with
    | false =>
        rw [update_char hne hlwsp] at hupdate
        rcases pending with - | ⟨pending⟩ | ⟨string⟩
        · have hplace := hloop port hne hlwsp hupdate
          simpa [Place.next, place, hne, hlwsp] using hplace
        · by_cases hequals : pending = '='
          · subst hequals
            simp only [resume, if_true, handleEquals] at hupdate
            split at hupdate
            · rename_i hdigit
              cases hupdate
              have hchar := ne_equals_of_digit hdigit
              refine ⟨by simp [Place.next, place, hne, hdigit, hchar], ?_⟩
              intro c hc
              cases hc
              exact Or.inr hdigit
            · rename_i hdigit
              cases hupdate
              exact ⟨by simp [Place.next, place, write, hne, hdigit],
                nofun⟩
          · simp only [resume, if_neg hequals] at hupdate
            split at hupdate
            · cases hupdate
              exact ⟨by simp [Place.next, place, write, hne, hequals],
                nofun⟩
            · cases hupdate
        · have hplace := hloop (port ++ string) hne hlwsp hupdate
          simpa [Place.next, place, hne, hlwsp] using hplace
    | true =>
        rw [update_lwsp hlwsp] at hupdate
        rcases pending with - | ⟨pending⟩ | ⟨string⟩
        · cases hupdate
          exact ⟨by simp [Place.next, place, hne, hlwsp], nofun⟩
        · cases hupdate
        · cases hupdate
          exact ⟨by simp [Place.next, place, hne, hlwsp], nofun⟩

theorem update_allowed (hwaits : d.Waits) (h : d.place.Allows char rest) :
    ∃ d', d.update [char] = .ok d' := by
  obtain ⟨port, pending⟩ := d
  by_cases hne : char = '\n'
  · subst hne
    rw [update_newline]
    rcases pending with - | ⟨pending⟩ | ⟨string⟩
    · exact ⟨_, rfl⟩
    · by_cases hequals : pending = '='
      · exact ⟨_, by simp only [finish, hequals]; rfl⟩
      · exact ⟨_, by simp only [finish, if_neg hequals]; rfl⟩
    · exact ⟨_, rfl⟩
  · have hallows := h.resolve_left hne
    cases hlwsp : charLwsp char with
    | false =>
        rw [update_char hne hlwsp]
        rcases pending with - | ⟨pending⟩ | ⟨string⟩
        · exact ⟨_, loop_singleton port char⟩
        · by_cases hequals : pending = '='
          · subst hequals
            simp only [resume, if_true, handleEquals]
            split <;> exact ⟨_, rfl⟩
          · rcases hwaits pending rfl with heq | hfirst
            · exact absurd heq hequals
            · simp only [place, if_neg hequals] at hallows
              obtain ⟨d1, hd1⟩ := Option.isSome_iff_exists.mp hfirst
              obtain ⟨d2, hd2⟩ := Option.isSome_iff_exists.mp hallows
              simp only [resume, if_neg hequals, decodeQpHex, hd1, hd2,
                loop]
              exact ⟨_, rfl⟩
        · exact ⟨_, loop_singleton (port ++ string) char⟩
    | true =>
        rw [update_lwsp hlwsp]
        have hdigit := not_digit_of_lwsp hlwsp
        rcases pending with - | ⟨pending⟩ | ⟨string⟩
        · exact ⟨_, rfl⟩
        · by_cases hequals : pending = '='
          · simp [place, hequals, hdigit, hlwsp] at hallows
          · simp [place, hequals, hdigit] at hallows
        · exact ⟨_, rfl⟩

theorem Place.Allows.prefix {place : Place} (h : place.Allows char (chars ++ rest)) :
    place.Allows char chars := by
  rcases h with heq | h
  · exact Or.inl heq
  · right
    cases place with
    | clear =>
        intro hlwsp hhead
        refine h hlwsp ?_
        rw [dropWhile_append]
        split
        · rename_i hempty
          rw [List.isEmpty_iff.mp hempty] at hhead
          cases hhead
        · rw [List.head?_append, hhead]
          rfl
    | lwsp => trivial
    | equals =>
        rcases h with hdigit | ⟨hlwsp, hall⟩
        · exact Or.inl hdigit
        · refine Or.inr ⟨hlwsp, fun c hc => hall c ?_⟩
          rw [takeWhile_append]
          split
          · exact mem_append_left _ ((List.takeWhile_prefix _).subset hc)
          · exact hc
    | digit => exact h

/-- **The characters of a packet, one at a time.** -/
theorem update_eq_foldlM (hwaits : d.Waits) (h : Regular d.place (chars ++ rest)) :
    ∃ d', d.update chars = .ok d' ∧ chars.foldlM (fun d char => d.update [char]) d = .ok d'
      ∧ d'.Waits ∧ Regular d'.place rest := by
  induction chars generalizing d with
  | nil => exact ⟨d, decodeQp_nil_packetEnd d, rfl, hwaits, h⟩
  | cons char chars ih =>
      obtain ⟨hallows, hrest⟩ := h
      obtain ⟨d1, hd1⟩ := update_allowed hwaits hallows
      obtain ⟨hplace, hwaits1⟩ := update_place hd1
      rw [← hplace] at hrest
      obtain ⟨d', hupdate, hfold, hd'⟩ := ih hwaits1 hrest
      refine ⟨d', ?_, ?_, hd'⟩
      · rw [update_cons hallows.prefix, hd1]
        exact hupdate
      · rw [foldlM_cons, hd1]
        exact hfold

theorem updates_eq_foldlM {packets : List (List Char)} (hwaits : d.Waits)
    (h : Regular d.place packets.flatten) :
    ∃ d', packets.foldlM update d = .ok d'
      ∧ packets.flatten.foldlM (fun d char => d.update [char]) d = .ok d' := by
  induction packets generalizing d with
  | nil => exact ⟨d, rfl, rfl⟩
  | cons chars packets ih =>
      obtain ⟨d1, hupdate, hfold, hwaits1, hrest⟩ := update_eq_foldlM hwaits h
      obtain ⟨d', hupdates, hfolds⟩ := ih hwaits1 hrest
      refine ⟨d', ?_, ?_⟩
      · rw [foldlM_cons, hupdate]
        exact hupdates
      · rw [flatten_cons, foldlM_append, hfold]
        exact hfolds

theorem finalize_eq (d : DecodingContext) :
    d.finalize = (d.finish [] .inputEnd).bind fun d => .ok d.port := by
  have hqp : d.decodeQp [] .inputEnd = d.finish [] .inputEnd := by
    change (d.resume []).bind _ = _
    rw [resume_nil]
    rfl
  rw [finalize, hqp]
  rfl

theorem finalize_ok (d : DecodingContext) : ∃ output, d.finalize = .ok output := by
  rw [finalize_eq]
  obtain ⟨port, pending⟩ := d
  rcases pending with - | ⟨pending⟩ | ⟨string⟩
  · exact ⟨_, rfl⟩
  · by_cases hequals : pending = '='
    · exact ⟨_, by simp only [finish, hequals]; rfl⟩
    · exact ⟨_, by simp only [finish, if_neg hequals]; rfl⟩
  · exact ⟨_, rfl⟩

/-- However the string is cut, this is written in the end. -/
def DecodingContext.Writes (d : DecodingContext) (chars output : List Char) : Prop :=
  ∀ packets : List (List Char), packets.flatten = chars →
    (packets.foldlM update d).bind finalize = .ok output

theorem Regular.writes (hwaits : d.Waits) (h : Regular d.place chars) :
    ∃ output, d.Writes chars output := by
  have hwhole : Regular d.place [chars].flatten := by
    rw [flatten_singleton]
    exact h
  obtain ⟨d', -, hfold⟩ := updates_eq_foldlM hwaits hwhole
  obtain ⟨output, houtput⟩ := finalize_ok d'
  refine ⟨output, ?_⟩
  intro packets hpackets
  obtain ⟨d2, hupdates, hfold2⟩ := updates_eq_foldlM hwaits (hpackets ▸ h)
  rw [flatten_singleton] at hfold
  rw [hpackets, hfold] at hfold2
  rw [hupdates, ← hfold2]
  exact houtput

/-! ## Where packets matter -/

theorem DecodingContext.Writes.packet {output : List Char} (h : d.Writes (chars ++ rest) output) :
    ∃ d', d.update chars = .ok d' ∧ d'.Writes rest output := by
  have hfirst : ∀ packets : List (List Char), packets.flatten = rest →
      ((d.update chars).bind fun d' => packets.foldlM update d').bind
        finalize = .ok output := by
    intro packets hpackets
    refine h (chars :: packets) ?_
    rw [flatten_cons, hpackets]
  cases hupdate : d.update chars with
  | error e =>
      have herror := hfirst [rest] flatten_singleton
      rw [hupdate] at herror
      cases herror
  | ok d' =>
      refine ⟨d', rfl, ?_⟩
      intro packets hpackets
      have hok := hfirst packets hpackets
      rw [hupdate] at hok
      exact hok

variable {pending : Option Pending} {port port' output : List Char}

theorem finish_length {lwsp : List Char}
    (hd : finish ⟨port, pending⟩ lwsp type = .ok d)
    (hd' : finish ⟨port', pending⟩ lwsp type = .ok d') :
    d.pending = d'.pending ∧ d.port.length + port'.length = d'.port.length + port.length := by
  unfold finish at hd hd'
  by_cases hupTo : type = .partialLine
  · simp only [hupTo, if_true] at hd hd'
    cases hstring : decodeQpPendingString pending lwsp with
    | error e =>
        rw [hstring] at hd
        cases hd
    | ok left =>
        rw [hstring] at hd hd'
        cases hd
        cases hd'
        exact ⟨rfl, Nat.add_comm _ _⟩
  · simp only [hupTo, if_false] at hd hd'
    rcases pending with - | ⟨pending⟩ | ⟨string⟩
    · by_cases hline : type = .lineEnd
      · simp only [hline, if_true] at hd hd'
        cases hd
        cases hd'
        exact ⟨rfl, by simp only [write, length_append]; omega⟩
      · simp only [hline, if_false] at hd hd'
        cases hd
        cases hd'
        exact ⟨rfl, Nat.add_comm _ _⟩
    · by_cases hequals : pending = '='
      · by_cases hline : type = .lineEnd
        · simp only [hequals, hline, if_true] at hd hd'
          cases hd
          cases hd'
          exact ⟨rfl, Nat.add_comm _ _⟩
        · simp only [hequals, hline, if_true, if_false] at hd hd'
          cases hd
          cases hd'
          exact ⟨rfl, by simp only [length_append]; omega⟩
      · simp only [hequals, if_false] at hd hd'
        cases hd
        cases hd'
        exact ⟨rfl, by simp only [length_append]; omega⟩
    · cases hd
      cases hd'
      exact ⟨rfl, Nat.add_comm _ _⟩

theorem loop_length {port port' : List Char}
    (hd : loop ⟨port, none⟩ [char] = .ok d)
    (hd' : loop ⟨port', none⟩ [char] = .ok d') :
    d.pending = d'.pending ∧ d.port.length + port'.length = d'.port.length + port.length := by
  rw [loop_singleton] at hd hd'
  by_cases hequals : char = '='
  · rw [if_pos hequals] at hd hd'
    cases hd
    cases hd'
    exact ⟨rfl, Nat.add_comm _ _⟩
  · rw [if_neg hequals] at hd hd'
    cases hencoded : qpEncoded char with
    | false =>
        rw [hencoded] at hd hd'
        cases hd
        cases hd'
        refine ⟨rfl, ?_⟩
        simp only [Bool.false_eq_true, if_false, length_append]
        omega
    | true =>
        rw [hencoded] at hd hd'
        cases hd
        cases hd'
        exact ⟨rfl, Nat.add_comm _ _⟩

theorem update_length (hd : update ⟨port, pending⟩ [char] = .ok d)
    (hd' : update ⟨port', pending⟩ [char] = .ok d') :
    d.pending = d'.pending ∧ d.port.length + port'.length = d'.port.length + port.length := by
  by_cases hne : char = '\n'
  · subst hne
    rw [update_newline] at hd hd'
    exact finish_length hd hd'
  · cases hlwsp : charLwsp char with
    | true =>
        rw [update_lwsp hlwsp] at hd hd'
        exact finish_length hd hd'
    | false =>
        rw [update_char hne hlwsp] at hd hd'
        rcases pending with - | ⟨pending⟩ | ⟨string⟩
        · exact loop_length hd hd'
        · by_cases hequals : pending = '='
          · subst hequals
            simp only [resume, if_true, handleEquals] at hd hd'
            split at hd
            · rename_i hdigit
              rw [if_pos hdigit] at hd'
              cases hd
              cases hd'
              exact ⟨rfl, Nat.add_comm _ _⟩
            · rename_i hdigit
              rw [if_neg hdigit] at hd'
              cases hd
              cases hd'
              exact ⟨rfl, by simp only [write, length_append]; omega⟩
          · simp only [resume, if_neg hequals] at hd hd'
            cases hhex : decodeQpHex pending char with
            | error e =>
                rw [hhex] at hd
                cases hd
            | ok decoded =>
                rw [hhex] at hd hd'
                cases hd
                cases hd'
                exact ⟨rfl, by simp only [write, length_append]; omega⟩
        · have hlength := @loop_length d d' char (port ++ string) (port' ++ string) hd hd'
          simp only [length_append] at hlength
          exact ⟨hlength.1, by omega⟩

theorem DecodingContext.Writes.length_eq (h : Writes ⟨port, pending⟩ chars output)
    (h' : Writes ⟨port', pending⟩ chars output) : port.length = port'.length := by
  induction chars generalizing port port' pending with
  | nil =>
      have hport := h [] rfl
      have hport' := h' [] rfl
      change finalize ⟨port, pending⟩ = _ at hport
      change finalize ⟨port', pending⟩ = _ at hport'
      rw [finalize_eq] at hport hport'
      cases hd : finish ⟨port, pending⟩ [] .inputEnd with
      | error e =>
          rw [hd] at hport
          cases hport
      | ok d =>
          cases hd' : finish ⟨port', pending⟩ [] .inputEnd with
          | error e =>
              rw [hd'] at hport'
              cases hport'
          | ok d' =>
              have hlength := (finish_length hd hd').2
              rw [hd] at hport
              rw [hd'] at hport'
              have heq : d.port = d'.port := Except.ok.inj (hport.trans hport'.symm)
              rw [heq] at hlength
              omega
  | cons char rest ih =>
      obtain ⟨⟨port1, pending1⟩, hd, hrest⟩ := @Writes.packet _ [char] rest output h
      obtain ⟨⟨port2, pending2⟩, hd', hrest'⟩ := @Writes.packet _ [char] rest output h'
      obtain ⟨hpending, hlength⟩ := update_length hd hd'
      cases hpending
      have := ih hrest hrest'
      simp only at hlength
      omega

theorem update_lwsp_line {lwsp : List Char} (h : ∀ c ∈ lwsp, charLwsp c = true) :
    d.update (lwsp ++ ['\n']) = d.finish [] .lineEnd := by
  have hne : '\n' ∉ lwsp := fun hmem => absurd (h '\n' hmem) (by decide)
  have hlines := @updateLines_lineEnd d lwsp [] [] hne
  change d.update (lwsp ++ ['\n']) = _ at hlines
  rw [hlines, decodeQp_eq, nil_append, skipLwspBackwards_eq_nil.mpr h, resume_nil]
  change (d.finish _ .lineEnd).bind _ = _
  rw [finish_lineEnd d _ []]
  cases d.finish [] .lineEnd with
  | error e => rfl
  | ok d => exact decodeQp_nil_packetEnd d

theorem DecodingContext.Writes.not_lineEnd
    (h : Writes ⟨port, none⟩ (char :: rest) output) (hlwsp : charLwsp char = true) :
    (rest.dropWhile charLwsp).head? ≠ some '\n' := by
  intro hhead
  obtain ⟨after, hafter⟩ := List.head?_eq_some_iff.mp hhead
  have hsplit : rest = rest.takeWhile charLwsp ++ '\n' :: after := by
    rw [← hafter, takeWhile_append_dropWhile]
  have hwhite : ∀ c ∈ rest.takeWhile charLwsp, charLwsp c = true := fun c hc =>
    mem_takeWhile_imp hc
  generalize rest.takeWhile charLwsp = lwsp at hsplit hwhite
  subst hsplit
  -- the whole line as a packet
  have hwhole : ∀ c ∈ char :: lwsp, charLwsp c = true := by
    intro c hc
    rcases mem_cons.mp hc with rfl | hc
    · exact hlwsp
    · exact hwhite c hc
  have hlong : Writes ⟨port, none⟩ ((char :: lwsp ++ ['\n']) ++ after) output := by
    simpa using h
  obtain ⟨d1, hd1, hrest1⟩ := hlong.packet
  rw [update_lwsp_line hwhole] at hd1
  cases hd1
  -- its first character as a packet, and the others as another
  obtain ⟨d2, hd2, hrest2⟩ := @Writes.packet _ [char] (lwsp ++ '\n' :: after) output h
  rw [update_lwsp hlwsp] at hd2
  cases hd2
  have hshort : Writes ⟨port, some (.string [char])⟩ ((lwsp ++ ['\n']) ++ after)
      output := by
    simpa using hrest2
  obtain ⟨d3, hd3, hrest3⟩ := hshort.packet
  rw [update_lwsp_line hwhite] at hd3
  cases hd3
  have hlength : (port ++ ['\n']).length = port.length := hrest1.length_eq hrest3
  rw [length_append, length_singleton] at hlength
  omega

theorem DecodingContext.Writes.last
    (h : Writes ⟨port, some (.char '=')⟩ (char :: rest) output)
    (hlwsp : charLwsp char = false) (hne : char ≠ '\n') (hdigit : charToDigit char = none) :
    ∀ c ∈ rest.takeWhile (· ≠ '\n'), charLwsp c = true := by
  rw [← skipLwspBackwards_eq_nil]
  by_contra hskip
  have hline : '\n' ∉ char :: rest.takeWhile (· ≠ '\n') := by
    intro hmem
    rcases mem_cons.mp hmem with heq | hmem
    · exact hne heq.symm
    · have := mem_takeWhile_imp hmem
      simp at this
  have hcut : Writes ⟨port, some (.char '=')⟩
      ((char :: rest.takeWhile (· ≠ '\n')) ++ rest.dropWhile (· ≠ '\n')) output := by
    rw [cons_append, takeWhile_append_dropWhile]
    exact h
  obtain ⟨d1, hd1, -⟩ := hcut.packet
  have hpacket := @updateLines_packetEnd ⟨port, some (.char '=')⟩ _ [] hline
  change update _ (char :: rest.takeWhile (· ≠ '\n')) = _ at hpacket
  rw [hpacket, nil_append, decodeQp_eq, skipLwspBackwards_cons, if_neg (by simp [hlwsp])] at hd1
  obtain ⟨c2, line, heq⟩ := exists_cons_of_ne_nil hskip
  rw [heq] at hd1
  simp only [resume, if_true, handleEquals,
    decodeQpHex_error (Or.inl hdigit)] at hd1
  cases hd1

/-- **A character that is not allowed** leads to an error in some packet, or to a different output. -/
theorem DecodingContext.Writes.allows (h : d.Writes (char :: rest) output) :
    d.place.Allows char rest := by
  by_cases hne : char = '\n'
  · exact Or.inl hne
  right
  obtain ⟨d1, hd1, -⟩ := @Writes.packet d [char] rest output h
  obtain ⟨port, pending⟩ := d
  rcases pending with - | ⟨pending⟩ | ⟨string⟩
  · exact h.not_lineEnd
  · have hlwsp : charLwsp char = false := by
      by_contra hlwsp
      rw [update_lwsp (by simpa using hlwsp)] at hd1
      cases hd1
    by_cases hequals : pending = '='
    · subst hequals
      cases hdigit : charToDigit char with
      | some digit => exact Or.inl rfl
      | none => exact Or.inr ⟨hlwsp, h.last hlwsp hne hdigit⟩
    · simp only [place, if_neg hequals]
      cases hdigit : charToDigit char with
      | some digit => rfl
      | none =>
          rw [update_char hne hlwsp] at hd1
          simp only [resume, if_neg hequals,
            decodeQpHex_error (Or.inr hdigit)] at hd1
          cases hd1
  · trivial

theorem DecodingContext.Writes.regular (h : d.Writes chars output) : Regular d.place chars := by
  induction chars generalizing d with
  | nil => trivial
  | cons char rest ih =>
      obtain ⟨d', hupdate, hrest⟩ := @Writes.packet d [char] rest output h
      refine ⟨h.allows, ?_⟩
      rw [← (update_place hupdate).1]
      exact ih hrest

theorem exists_packets {packets : List (List Char)} {chars : List Latin}
    (h : packets.flatten = chars.map Subtype.val) :
    ∃ packets' : List (List Latin), packets'.map (List.map Subtype.val) = packets
      ∧ packets'.flatten = chars := by
  induction packets generalizing chars with
  | nil => exact ⟨[], rfl, (map_eq_nil_iff.mp h.symm).symm⟩
  | cons packet packets ih =>
      obtain ⟨front, back, rfl, hfront, hback⟩ := map_eq_append_iff.mp h.symm
      obtain ⟨packets', hmap, rfl⟩ := ih hback.symm
      exact ⟨front :: packets', by rw [map_cons, hfront, hmap], rfl⟩

/-- **The decoder is independent of packet boundaries, and signals no error, exactly for regular strings**:
no white space comes before the end of a line, and an equals sign is followed by two digits, by the end
of the line, by a digit and the end of the line, or by an illegal character with nothing after it but the
end of the line, or white space up to the end of the input. The input may end anywhere. -/
theorem decode_packets (chars : List Latin) :
    (∀ packets packets' : List (List Latin), packets.flatten = chars → packets'.flatten = chars →
        ∃ output, decode (packets.map (List.map Subtype.val)) = .ok output
          ∧ decode (packets'.map (List.map Subtype.val)) = .ok output)
      ↔ Regular .clear (chars.map Subtype.val) := by
  constructor
  · intro h
    obtain ⟨output, houtput, -⟩ := h [chars] [chars] flatten_singleton flatten_singleton
    have hwrites : DecodingContext.initial.Writes (chars.map Subtype.val) output := by
      intro packets hpackets
      obtain ⟨packets', rfl, hflatten⟩ := exists_packets hpackets
      obtain ⟨output', hwhole, hcut⟩ := h [chars] packets' flatten_singleton hflatten
      rw [hwhole] at houtput
      rw [← houtput]
      exact hcut
    exact hwrites.regular
  · intro h packets packets' hpackets hpackets'
    obtain ⟨output, hwrites⟩ := @Regular.writes .initial _ nofun h
    refine ⟨output, hwrites _ ?_, hwrites _ ?_⟩
    · rw [← map_flatten, hpackets]
    · rw [← map_flatten, hpackets']

/-- White space before the end of a line, and an illegal escape. -/
theorem decode_packets_differ :
    decode [['a', ' ', '\n']] = .ok ['a', '\n'] ∧ decode [['a', ' '], ['\n']] = .ok ['a']
      ∧ decode [['=', 'Z', 'a']] = .error .notFixnum
      ∧ decode [['=', 'Z'], ['a']] = .ok ['=', 'Z', 'a'] := by
  exact ⟨rfl, rfl, rfl, rfl⟩

end MitScheme.QuotedPrintable
