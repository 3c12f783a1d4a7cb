import Mathlib.Data.List.Basic

/-!
# `minicsv.h`

The streams that write the result files.  A value is preceded by the delimiter unless it is the first
one behind a newline; a `char` that is no newline is written as it is.  What the input stream reads
from a written file are the values, as long as none contains a character that ends one.
-/

namespace AnalyseTCP

namespace Csv

/-- `ofstream`, with what was written to the file. -/
structure OFStream where
  ostm : List Char := []
  afterNewline : Bool := true
  delimiter : Char := ','

/-- `operator <<`. -/
def OFStream.put (s : OFStream) (val : List Char) : OFStream :=
  { s with
    ostm := (if s.afterNewline then s.ostm else s.ostm ++ [s.delimiter]) ++ val
    afterNewline := false }

/-- `operator <<` of a `char`. -/
def OFStream.putChar (s : OFStream) (val : Char) : OFStream :=
  if val = '\n' then { s with ostm := s.ostm ++ ['\n'], afterNewline := true }
  else { s with ostm := s.ostm ++ [val] }

/-- Values, and `NEWLINE`. -/
def OFStream.putRow (s : OFStream) (row : List (List Char)) : OFStream :=
  (row.foldl OFStream.put s).putChar '\n'

/-- `ifstream`, with what is left of the file. -/
structure IFStream where
  istm : List Char
  eof : Bool := false
  str : List Char := []
  pos : ℕ := 0
  delimiter : Char := ','

/-- `std::getline`: the line, what is left behind it, and whether the file has ended. -/
def getline : List Char → List Char × List Char × Bool
  | [] => ([], [], true)
  | ch :: rest =>
      if ch = '\n' then ([], rest, false)
      else (ch :: (getline rest).1, (getline rest).2)

namespace IFStream

def skipLine (s : IFStream) : IFStream :=
  if s.eof then s
  else
    let (line, istm, eof) := getline s.istm
    { s with istm := istm, eof := eof, str := line, pos := 0 }

def readLine (s : IFStream) : Bool × IFStream :=
  if s.eof then (false, { s with str := [] })
  else
    let (line, istm, eof) := getline s.istm
    (!line.isEmpty, { s with istm := istm, eof := eof, str := line, pos := 0 })

/-- The loop of `get_delimited_str` over the characters from `pos` on: those before the one that ends
the value, and those behind it, unless the line ends first. -/
def delimited (delimiter : Char) : List Char → List Char × Option (List Char)
  | [] => ([], none)
  | ch :: rest =>
      if ch = delimiter ∨ ch = '\r' ∨ ch = '\n' then ([], some rest)
      else (ch :: (delimited delimiter rest).1, (delimited delimiter rest).2)

def getDelimitedStr (s : IFStream) : List Char × IFStream :=
  match delimited s.delimiter (s.str.drop s.pos) with
  | (dStr, none) => (dStr, { s with str := [], pos := max s.pos s.str.length })
  | (dStr, some rest) => (dStr, { s with pos := s.str.length - rest.length })

/-- `n` values of a line. -/
def readFields : ℕ → IFStream → List (List Char) × IFStream
  | 0, s => ([], s)
  | n + 1, s =>
      let (dStr, s) := s.getDelimitedStr
      let (row, s) := readFields n s
      (dStr :: row, s)

/-- `while (s.read_line())`, with `n` values of each line; there are at most `fuel` lines. -/
def readRows (n : ℕ) : ℕ → IFStream → List (List (List Char))
  | 0, _ => []
  | fuel + 1, s =>
      match s.readLine with
      | (false, _) => []
      | (true, s) =>
          let (row, s) := readFields n s
          row :: readRows n fuel s

end IFStream

/-! ## What is written -/

/-- The characters of a line, less its newline. -/
def rowText : List (List Char) → List Char
  | [] => []
  | [val] => val
  | val :: val' :: row => val ++ ',' :: rowText (val' :: row)

section Write

variable {s : OFStream}

theorem ostm_foldl_put (row : List (List Char)) (hdelimiter : s.delimiter = ',')
    (hbehind : s.afterNewline = false) :
    (row.foldl OFStream.put s).ostm = s.ostm ++ row.flatMap fun val => ',' :: val := by
  induction row generalizing s with
  | nil => exact (List.append_nil _).symm
  | cons val row ih =>
      rw [List.foldl_cons, ih (s := s.put val) hdelimiter rfl, List.flatMap_cons]
      unfold OFStream.put
      simp [hbehind, hdelimiter]

theorem rowText_cons (val : List Char) (row : List (List Char)) :
    rowText (val :: row) = val ++ row.flatMap fun val => ',' :: val := by
  induction row generalizing val with
  | nil => exact (List.append_nil _).symm
  | cons val' row ih => rw [rowText, ih, List.flatMap_cons, List.cons_append]

/-- A row at the start of a line. -/
theorem putRow_spec (row : List (List Char)) (hdelimiter : s.delimiter = ',')
    (hstart : s.afterNewline = true) :
    (s.putRow row).ostm = s.ostm ++ rowText row ++ ['\n'] ∧ (s.putRow row).afterNewline = true ∧
      (s.putRow row).delimiter = ',' := by
  have hmembers : ∀ (row : List (List Char)) (s : OFStream), s.delimiter = ',' →
      (row.foldl OFStream.put s).delimiter = ',' := by
    intro row
    induction row with
    | nil => exact fun _ h => h
    | cons val row ih => exact fun s h => ih _ h
  refine ⟨?_, rfl, hmembers row s hdelimiter⟩
  show (row.foldl OFStream.put s).ostm ++ ['\n'] = _
  cases row with
  | nil => rw [rowText, List.append_nil, List.foldl_nil]
  | cons val row =>
      rw [List.foldl_cons, ostm_foldl_put (s := s.put val) row hdelimiter rfl, rowText_cons]
      unfold OFStream.put
      simp [hstart]

/-- The characters of several rows. -/
theorem ostm_foldl_putRow (rows : List (List (List Char))) (hdelimiter : s.delimiter = ',')
    (hstart : s.afterNewline = true) :
    (rows.foldl OFStream.putRow s).ostm =
      s.ostm ++ rows.flatMap fun row => rowText row ++ ['\n'] := by
  induction rows generalizing s with
  | nil => exact (List.append_nil _).symm
  | cons row rows ih =>
      obtain ⟨hostm, hnext, hdelimiter'⟩ := putRow_spec row hdelimiter hstart
      rw [List.foldl_cons, ih hdelimiter' hnext, hostm, List.flatMap_cons]
      simp

theorem length_le_flatMap (rows : List (List (List Char))) :
    rows.length ≤ (rows.flatMap fun row => rowText row ++ ['\n']).length := by
  induction rows with
  | nil => exact Nat.le_refl _
  | cons row rows ih =>
      rw [List.flatMap_cons, List.length_cons, List.length_append, List.length_append,
        List.length_singleton]
      omega

end Write

/-! ## What is read -/

/-- No character of the value ends a value or a line. -/
def Clean (val : List Char) : Prop := ',' ∉ val ∧ '\r' ∉ val ∧ '\n' ∉ val

instance (val : List Char) : Decidable (Clean val) := inferInstanceAs (Decidable (_ ∧ _))

section Read

theorem getline_append {line : List Char} (h : '\n' ∉ line) (rest : List Char) :
    getline (line ++ '\n' :: rest) = (line, rest, false) := by
  induction line with
  | nil => rfl
  | cons ch line ih =>
      rw [List.mem_cons, not_or] at h
      rw [List.cons_append, getline, if_neg (Ne.symm h.1), ih h.2]

theorem Clean.delimited_append {val : List Char} (h : Clean val) (rest : List Char) :
    IFStream.delimited ',' (val ++ rest) =
      (val ++ (IFStream.delimited ',' rest).1, (IFStream.delimited ',' rest).2) := by
  obtain ⟨hcomma, hreturn, hnewline⟩ := h
  induction val with
  | nil => rfl
  | cons ch val ih =>
      rw [List.mem_cons, not_or] at hcomma hreturn hnewline
      have hne : ¬(ch = ',' ∨ ch = '\r' ∨ ch = '\n') := by
        rintro (rfl | rfl | rfl)
        · exact hcomma.1 rfl
        · exact hreturn.1 rfl
        · exact hnewline.1 rfl
      rw [List.cons_append, IFStream.delimited, if_neg hne, ih hcomma.2 hreturn.2 hnewline.2]
      rfl

theorem newline_notMem_rowText {row : List (List Char)} (hclean : ∀ val ∈ row, Clean val) :
    '\n' ∉ rowText row := by
  cases row with
  | nil => exact List.not_mem_nil
  | cons val row =>
      rw [rowText_cons, List.mem_append, List.mem_flatMap]
      rintro (hfirst | ⟨val', hmem, hin⟩)
      · exact (hclean val List.mem_cons_self).2.2 hfirst
      · rcases List.mem_cons.mp hin with hcomma | hin
        · exact absurd hcomma (by decide)
        · exact (hclean val' (List.mem_cons_of_mem _ hmem)).2.2 hin

theorem getDelimitedStr_last {s : IFStream} {val : List Char}
    (h : IFStream.delimited s.delimiter (s.str.drop s.pos) = (val, none)) :
    s.getDelimitedStr = (val, { s with str := [], pos := max s.pos s.str.length }) := by
  unfold IFStream.getDelimitedStr
  rw [h]

theorem getDelimitedStr_more {s : IFStream} {val rest : List Char}
    (h : IFStream.delimited s.delimiter (s.str.drop s.pos) = (val, some rest)) :
    s.getDelimitedStr = (val, { s with pos := s.str.length - rest.length }) := by
  unfold IFStream.getDelimitedStr
  rw [h]

/-- The values of a line are read one after the other; `done` has been passed. -/
theorem readFields_rowText {row : List (List Char)} {s : IFStream} (done : List Char)
    (hclean : ∀ val ∈ row, Clean val) (hne : row ≠ []) (hdelimiter : s.delimiter = ',')
    (hstr : s.str = done ++ rowText row) (hpos : s.pos = done.length) :
    (s.readFields row.length).1 = row ∧ (s.readFields row.length).2.istm = s.istm ∧
      (s.readFields row.length).2.eof = s.eof ∧ (s.readFields row.length).2.delimiter = ',' := by
  induction row generalizing s done with
  | nil => exact absurd rfl hne
  | cons val row ih =>
      obtain ⟨hval, hrow⟩ := List.forall_mem_cons.mp hclean
      have hdrop : s.str.drop s.pos = rowText (val :: row) := by
        rw [hstr, hpos, List.drop_left]
      rw [List.length_cons, IFStream.readFields]
      cases row with
      | nil =>
          have hlast : IFStream.delimited s.delimiter (s.str.drop s.pos) = (val, none) := by
            have happend := hval.delimited_append []
            rw [hdrop, hdelimiter, rowText]
            rw [List.append_nil] at happend
            rw [happend, IFStream.delimited, List.append_nil]
          rw [getDelimitedStr_last hlast]
          exact ⟨rfl, rfl, rfl, hdelimiter⟩
      | cons val' row =>
          have hmore : IFStream.delimited s.delimiter (s.str.drop s.pos) =
              (val, some (rowText (val' :: row))) := by
            rw [hdrop, hdelimiter, rowText, hval.delimited_append, IFStream.delimited,
              if_pos (.inl rfl), List.append_nil]
          rw [getDelimitedStr_more hmore]
          have hstr' : s.str = (done ++ val ++ [',']) ++ rowText (val' :: row) := by
            rw [hstr, rowText]
            simp
          have hpos' : s.str.length - (rowText (val' :: row)).length =
              (done ++ val ++ [',']).length := by
            rw [hstr', List.length_append, Nat.add_sub_cancel]
          obtain ⟨hvals, hrest⟩ := ih (s := { s with
              pos := s.str.length - (rowText (val' :: row)).length }) (done ++ val ++ [',']) hrow
            (List.cons_ne_nil _ _) hdelimiter hstr' hpos'
          exact ⟨congrArg (val :: ·) hvals, hrest⟩

/-- A line that `read_line` does not take for the end of the file. -/
structure Row (n : ℕ) (row : List (List Char)) : Prop where
  length : row.length = n
  clean : ∀ val ∈ row, Clean val
  text : rowText row ≠ []

/-- What is read from the rows of a file are the rows. -/
theorem readRows_rows {n : ℕ} {rows : List (List (List Char))} {s : IFStream}
    (hrows : ∀ row ∈ rows, Row n row) (heof : s.eof = false) (hdelimiter : s.delimiter = ',')
    (histm : s.istm = rows.flatMap fun row => rowText row ++ ['\n']) {fuel : ℕ}
    (hfuel : rows.length < fuel) : s.readRows n fuel = rows := by
  induction rows generalizing s fuel with
  | nil =>
      obtain ⟨fuel, rfl⟩ := Nat.exists_eq_succ_of_ne_zero (Nat.ne_zero_of_lt hfuel)
      unfold IFStream.readRows IFStream.readLine
      rw [heof, histm]
      rfl
  | cons row rows ih =>
      obtain ⟨fuel, rfl⟩ := Nat.exists_eq_succ_of_ne_zero (Nat.ne_zero_of_lt hfuel)
      obtain ⟨hrow, hrest⟩ := List.forall_mem_cons.mp hrows
      have hne : row ≠ [] := by
        rintro rfl
        exact hrow.text rfl
      have hline : s.readLine = (true, { s with
          istm := rows.flatMap fun row => rowText row ++ ['\n']
          eof := false
          str := rowText row
          pos := 0 }) := by
        have hget : getline s.istm =
            (rowText row, rows.flatMap fun row => rowText row ++ ['\n'], false) := by
          rw [histm, List.flatMap_cons, List.append_assoc]
          exact getline_append (newline_notMem_rowText hrow.clean) _
        unfold IFStream.readLine
        rw [heof, hget]
        simp [hrow.text]
      obtain ⟨hvals, histm', heof', hdelimiter'⟩ := readFields_rowText (s := { s with
          istm := rows.flatMap fun row => rowText row ++ ['\n']
          eof := false
          str := rowText row
          pos := 0 }) [] hrow.clean hne hdelimiter rfl rfl
      rw [hrow.length] at hvals histm' heof' hdelimiter'
      rw [IFStream.readRows, hline]
      show _ :: _ = _
      rw [hvals, ih hrest heof' hdelimiter' histm' (by simpa using hfuel)]

end Read

end Csv

end AnalyseTCP
