import OverlayCache.Proofs.Json.Tokens

/-
  Written values are read back.

  A value whose strings are texts, and whose numbers are
  integers, is read from the front of a text that begins with
  its written form.  The length of that form is fuel enough:
  each level of nesting and each further item spends one unit
  of fuel and at least one character.

  Key definitions include:
    * `Json.Textual`

  The main statements are:
    * `Json.Reader.value_written`
    * `Json.read?_write`
-/

------------------------------------------------------------
-- Values Of Texts And Integers
------------------------------------------------------------

namespace OverlayCache

namespace Json

/- There is no surrogate among the glyphs. -/
def IsText (gs : List Glyph) : Prop :=
  ∃ cs : List Char, gs = cs.map .char

theorem isText_glyphs (s : String) : IsText (glyphs s) :=
  ⟨s.toList, rfl⟩

mutual

/-
  All strings of a value are texts, and all its numbers are
  integers.
-/
def Textual : Json → Prop
| .null => True
| .bool _ => True
| .int _ => True
| .real _ => False
| .str gs => IsText gs
| .arr items => TextualItems items
| .obj ms => TextualMembers ms

def TextualItems : List Json → Prop
| [] => True
| item :: items => item.Textual ∧ TextualItems items

def TextualMembers : Members → Prop
| [] => True
| (name, item) :: ms =>
    IsText name ∧ item.Textual ∧ TextualMembers ms

end

end Json

end OverlayCache

------------------------------------------------------------
-- First Characters
------------------------------------------------------------

namespace OverlayCache

namespace Json

namespace Writer

/- The characters that a number may begin with. -/
def leads (c : Char) : Bool :=
  c.isDigit || c == '-'

/- The blanks, and what other values begin or end with. -/
def marks : List Char :=
  [' ', '\t', '\n', '\r', 'n', 't', 'f', '"', '[', '{', ']']

theorem not_mem_marks
    {c : Char}
    (hLeads : leads c = true) :
    c ∉ marks := by
  have hNone : marks.all (fun d => !leads d) = true := by
    decide
  intro hMem
  have hOther := List.all_eq_true.mp hNone c hMem
  rw [hLeads] at hOther
  cases hOther

theorem integer_eq_cons (n : Int) :
    ∃ c s, integer n = c :: s ∧ leads c = true := by
  cases n with
  | ofNat n =>
      cases hDigits : Nat.toDigits 10 n with
      | nil => exact absurd hDigits Nat.toDigits_ne_nil
      | cons c s =>
          have hMem : c ∈ Nat.toDigits 10 n := by
            rw [hDigits]
            exact List.mem_cons_self
          have hDigit : c.isDigit = true :=
            Nat.isDigit_of_mem_toDigits
              (by decide) (by decide) hMem
          exact ⟨c, s, hDigits, by rw [leads, hDigit]; rfl⟩
  | negSucc n => exact ⟨'-', _, rfl, rfl⟩

theorem isBlank_of_leads
    {c : Char}
    (hLeads : leads c = true) :
    Reader.isBlank c = false := by
  have hMark := not_mem_marks hLeads
  simp only [marks, List.mem_cons, not_or] at hMark
  simp [Reader.isBlank, hMark]

/-
  A written value begins neither with a blank nor with a
  bracket that closes.
-/
theorem value_eq_cons
    {j : Json}
    (hText : j.Textual) :
    ∃ c s, value j = c :: s ∧
      Reader.isBlank c = false ∧ c ≠ ']' := by
  cases j with
  | null => exact ⟨_, _, value.eq_1, by decide, by decide⟩
  | bool b =>
      cases b with
      | true => exact ⟨_, _, value.eq_2, by decide, by decide⟩
      | false =>
          exact ⟨_, _, value.eq_3, by decide, by decide⟩
  | int n =>
      rcases integer_eq_cons n with ⟨c, s, hCons, hLeads⟩
      refine ⟨c, s, by rw [value, hCons],
        isBlank_of_leads hLeads, ?_⟩
      rintro rfl
      exact not_mem_marks hLeads (by decide)
  | real token => exact absurd hText (by simp [Textual])
  | str gs =>
      exact ⟨'"', _, by rw [value, string]; rfl,
        by decide, by decide⟩
  | arr items =>
      cases items with
      | nil => exact ⟨_, _, value.eq_7, by decide, by decide⟩
      | cons item items =>
          exact ⟨'[', _, by rw [value]; rfl,
            by decide, by decide⟩
  | obj ms =>
      cases ms with
      | nil => exact ⟨_, _, value.eq_9, by decide, by decide⟩
      | cons m ms =>
          exact ⟨'{', _, by rw [value]; rfl,
            by decide, by decide⟩

end Writer

end Json

end OverlayCache

------------------------------------------------------------
-- One Step Of The Reader
------------------------------------------------------------

namespace OverlayCache

namespace Json

namespace Reader

variable {fuel : Nat} {s rest rest' : List Char}

theorem skip_cons
    {c : Char}
    (hText : isBlank c = false) :
    skip (c :: s) = c :: s := by
  simp [skip, hText]

/- A digit or a minus begins a number. -/
theorem value_number
    {c : Char}
    (hLeads : Writer.leads c = true) :
    value (fuel + 1) (c :: s) = number (c :: s) := by
  have hMark := Writer.not_mem_marks hLeads
  simp only [Writer.marks, List.mem_cons, not_or] at hMark
  rw [value, skip_cons (Writer.isBlank_of_leads hLeads)]
  split <;>
    first
    | rfl
    | next hFront =>
        cases hFront
        simp at hMark

/- A bracket that nothing closes at once begins the items. -/
theorem value_items
    {c : Char}
    (hText : isBlank c = false)
    (hOpen : c ≠ ']')
    {js : List Json}
    (hItems : items fuel (c :: s) = some (js, rest)) :
    value (fuel + 1) ('[' :: c :: s) =
      some (.arr js, rest) := by
  rw [value, skip_cons (by decide)]
  simp only [skip_cons hText]
  split
  · next hFront =>
      cases hFront
      exact absurd rfl hOpen
  · rw [hItems]
    rfl

/- A brace before a quote begins the members. -/
theorem value_members
    {ms : Members}
    (hMembers : members fuel ('"' :: s) = some (ms, rest)) :
    value (fuel + 1) ('{' :: '"' :: s) =
      some (.obj ms, rest) := by
  rw [value, skip_cons (by decide)]
  simp only [skip_cons (show isBlank '"' = false by decide)]
  split
  · next hFront =>
      exact absurd (List.cons.inj hFront).1 (by decide)
  · rw [hMembers]
    rfl

/- The bracket that closes an array ends the items. -/
theorem items_last
    {j : Json}
    (hItem : value fuel s = some (j, ']' :: rest)) :
    items (fuel + 1) s = some ([j], rest) := by
  rw [items, hItem]
  rfl

/- A comma goes on with further items. -/
theorem items_more
    {j : Json}
    {js : List Json}
    (hItem : value fuel s = some (j, ',' :: rest))
    (hMore : items fuel rest = some (js, rest')) :
    items (fuel + 1) s = some (j :: js, rest') := by
  rw [items, hItem]
  simp only [Option.bind_eq_bind, Option.bind_some,
    skip_cons (show isBlank ',' = false by decide), hMore]

/- The brace that closes an object ends the members. -/
theorem members_last
    {name : List Glyph}
    {j : Json}
    {text : List Char}
    (hName : string s = some (name, ':' :: text))
    (hItem : value fuel text = some (j, '}' :: rest)) :
    members (fuel + 1) ('"' :: s) =
      some ([(name, j)], rest) := by
  rw [members, skip_cons (by decide)]
  simp only [hName, Option.bind_eq_bind, Option.bind_some,
    skip_cons (show isBlank ':' = false by decide), hItem]
  rfl

/- A comma goes on with further members. -/
theorem members_more
    {name : List Glyph}
    {j : Json}
    {ms : Members}
    {text : List Char}
    (hName : string s = some (name, ':' :: text))
    (hItem : value fuel text = some (j, ',' :: rest))
    (hMore : members fuel rest = some (ms, rest')) :
    members (fuel + 1) ('"' :: s) =
      some ((name, j) :: ms, rest') := by
  rw [members, skip_cons (by decide)]
  simp only [hName, Option.bind_eq_bind, Option.bind_some,
    skip_cons (show isBlank ':' = false by decide), hItem,
    skip_cons (show isBlank ',' = false by decide), hMore]

end Reader

end Json

end OverlayCache

------------------------------------------------------------
-- Reading Back
------------------------------------------------------------

namespace OverlayCache

namespace Json

namespace Reader

/- The punctuation after an item or member ends a number. -/
theorem endsNumber_cons
    {c : Char}
    (hMark : c = ',' ∨ c = ']' ∨ c = '}')
    (s : List Char) :
    EndsNumber (c :: s) := by
  rintro d ⟨⟩
  rcases hMark with rfl | rfl | rfl <;> decide

/- A written string is read back with its quotes. -/
theorem string_written
    {gs : List Glyph}
    (hText : IsText gs)
    (rest : List Char) :
    string (gs.flatMap Writer.glyph ++ '"' :: rest) =
      some (gs, rest) := by
  rcases hText with ⟨cs, rfl⟩
  exact string_text cs rest

mutual

/-
  Each value, with fuel for its written form, is read from a
  text that begins with this form.
-/
theorem value_written
    (j : Json)
    {fuel : Nat}
    {rest : List Char}
    (hText : j.Textual)
    (hFuel : (Writer.value j).length < fuel)
    (hEnds : EndsNumber rest) :
    value fuel (Writer.value j ++ rest) = some (j, rest) := by
  cases fuel with
  | zero => exact absurd hFuel (Nat.not_lt_zero _)
  | succ fuel =>
      match j with
      | .null => rfl
      | .bool true => rfl
      | .bool false => rfl
      | .int n =>
          rcases Writer.integer_eq_cons n with
            ⟨c, s, hCons, hLeads⟩
          rw [Writer.value, ← number_integer hEnds n, hCons,
            List.cons_append, value_number hLeads]
      | .real token => exact absurd hText (by simp [Textual])
      | .str gs =>
          have hString := string_written hText rest
          simp only [Writer.value, Writer.string,
            List.cons_append, List.append_assoc,
            List.nil_append]
          rw [value, skip_cons (by decide)]
          simp only [hString, Option.bind_eq_bind,
            Option.bind_some]
      | .arr [] => rfl
      | .arr (item :: js) =>
          rcases hText with ⟨hItem, hItems⟩
          rcases Writer.value_eq_cons hItem with
            ⟨c, s, hCons, hBlank, hOpen⟩
          rw [Writer.value, List.length_append,
            List.length_cons] at hFuel
          have hRead :
              items fuel (Writer.value item ++
                  Writer.moreItems js ++ rest) =
                some (item :: js, rest) :=
            items_written item js hItem hItems
              (by rw [List.length_append]; omega)
          rw [Writer.value]
          rw [hCons] at hRead ⊢
          exact value_items hBlank hOpen hRead
      | .obj [] => rfl
      | .obj ((name, item) :: ms) =>
          rcases hText with ⟨hName, hItem, hMembers⟩
          simp only [Writer.value, List.length_append,
            List.length_cons] at hFuel
          rw [Writer.value]
          apply value_members
          exact members_written name item ms hName hItem
            hMembers (by rw [List.length_append]; omega)
termination_by fuel

theorem items_written
    (item : Json)
    (js : List Json)
    {fuel : Nat}
    {rest : List Char}
    (hItem : item.Textual)
    (hItems : TextualItems js)
    (hFuel :
      (Writer.value item ++ Writer.moreItems js).length <
        fuel) :
    items fuel
        (Writer.value item ++ Writer.moreItems js ++ rest) =
      some (item :: js, rest) := by
  cases fuel with
  | zero => exact absurd hFuel (Nat.not_lt_zero _)
  | succ fuel =>
      rw [List.append_assoc]
      match js with
      | [] =>
          rw [Writer.moreItems, List.length_append,
            List.length_singleton] at hFuel
          apply items_last
          exact value_written item hItem (by omega)
            (endsNumber_cons (by simp) rest)
      | next :: js =>
          rcases hItems with ⟨hNext, hItems⟩
          simp only [Writer.moreItems, List.length_append,
            List.length_cons] at hFuel
          apply items_more
          · exact value_written item hItem (by omega)
              (endsNumber_cons (by simp) _)
          · exact items_written next js hNext hItems
              (by rw [List.length_append]; omega)
termination_by fuel

theorem members_written
    (name : List Glyph)
    (item : Json)
    (ms : Members)
    {fuel : Nat}
    {rest : List Char}
    (hName : IsText name)
    (hItem : item.Textual)
    (hMembers : TextualMembers ms)
    (hFuel :
      (Writer.value item ++ Writer.moreMembers ms).length <
        fuel) :
    members fuel
        (Writer.string name ++ ':' :: Writer.value item ++
          Writer.moreMembers ms ++ rest) =
      some ((name, item) :: ms, rest) := by
  cases fuel with
  | zero => exact absurd hFuel (Nat.not_lt_zero _)
  | succ fuel =>
      simp only [Writer.string, List.cons_append,
        List.append_assoc, List.nil_append]
      match ms with
      | [] =>
          rw [Writer.moreMembers, List.length_append,
            List.length_singleton] at hFuel
          apply members_last (string_written hName _)
          exact value_written item hItem (by omega)
            (endsNumber_cons (by simp) rest)
      | (next, nextItem) :: ms =>
          rcases hMembers with ⟨hNext, hNextItem, hMembers⟩
          simp only [Writer.moreMembers, List.length_append,
            List.length_cons] at hFuel
          apply members_more (string_written hName _)
          · exact value_written item hItem (by omega)
              (endsNumber_cons (by simp) _)
          · exact members_written next nextItem ms hNext
              hNextItem hMembers
              (by rw [List.length_append]; omega)
termination_by fuel

end

end Reader

/- A written text is read as the value that it was made of. -/
theorem read?_write
    {j : Json}
    (hText : j.Textual) :
    read? j.write = some j := by
  have hRead :
      Reader.value (2 * (Writer.value j).length + 2)
          (Writer.value j ++ []) =
        some (j, []) :=
    Reader.value_written j hText (by omega)
      (by rintro c ⟨⟩)
  rw [List.append_nil] at hRead
  simp only [read?, write, String.toList_ofList, hRead,
    Option.bind_eq_bind, Option.bind_some]
  rfl

end Json

end OverlayCache
