import Mathlib.Data.List.Basic

namespace Csv

/-- A delimiter that can be told from quotes and line breaks. -/
structure Dialect where
  delimiter : Char
  quotechar : Char
  apart : delimiter ≠ quotechar ∧ delimiter ≠ '\n' ∧ delimiter ≠ '\r'

def excel : Dialect := ⟨',', '"', by decide⟩

inductive State
  | startRecord
  | startField
  | inField
  | inQuotedField
  | quoteInQuotedField
  | eatCrnl
  deriving DecidableEq

structure Reader where
  state : State
  field : List Char
  fields : List String

def Reader.reset : Reader := ⟨.startRecord, [], []⟩

def endsLine (c : Option Char) : Bool := c = none || c = some '\n' || c = some '\r'

namespace Reader

variable (D : Dialect) (r : Reader) (c : Option Char)

def addChar : Reader := { r with field := r.field ++ c.toList }

def saveField : Reader := { r with field := [], fields := r.fields ++ [String.ofList r.field] }

def nextField : Reader := { r.saveField with state := .startField }

def endRecord : Reader :=
  { r.saveField with state := if c = none then .startRecord else .eatCrnl }

def openField : Reader :=
  if endsLine c then r.endRecord c
  else if c = some D.quotechar then { r with state := .inQuotedField }
  else if c = some D.delimiter then r.nextField
  else { r.addChar c with state := .inField }

/-- `none` as the result is an error: there is more on a line behind its line break. -/
def process : Option Reader :=
  match r.state with
  | .startRecord =>
    if c = none then some r
    else if endsLine c then some { r with state := .eatCrnl }
    else some (r.openField D c)
  | .startField => some (r.openField D c)
  | .inField => some <|
    if endsLine c then r.endRecord c
    else if c = some D.delimiter then r.nextField
    else r.addChar c
  | .inQuotedField => some <|
    if c = some D.quotechar then { r with state := .quoteInQuotedField } else r.addChar c
  | .quoteInQuotedField => some <|
    -- two quotes stand for one
    if c = some D.quotechar then { r.addChar c with state := .inQuotedField }
    else if c = some D.delimiter then r.nextField
    else if endsLine c then r.endRecord c
    else { r.addChar c with state := .inField }
  | .eatCrnl =>
    if c = none then some { r with state := .startRecord }
    else if endsLine c then some r else none

def processAll (cs : List (Option Char)) : Option Reader := cs.foldlM (process D) r

end Reader

def lines : List Char → List (List Char)
  | [] => []
  | '\r' :: '\n' :: cs => ['\r', '\n'] :: lines cs
  | c :: cs =>
    if c = '\n' ∨ c = '\r' then [c] :: lines cs
    else match lines cs with
      | [] => [[c]]
      | l :: ls => (c :: l) :: ls

def records (D : Dialect) : Reader → List (List Char) → Option (List (List String))
  | r, [] => some (if r.field ≠ [] ∨ r.state = .inQuotedField then [r.saveField.fields] else [])
  | r, l :: ls => (r.processAll D (l.map some ++ [none])).bind fun r =>
    if r.state = .startRecord then (records D .reset ls).map (r.fields :: ·) else records D r ls

def reader (D : Dialect) (text : List Char) : Option (List (List String)) :=
  records D .reset (lines text)

/-- What a record has for a name: `none` if it has fewer fields than there are names. Of two fields
of one name the later counts. -/
def dict (names row : List String) (key : String) : Option (Option String) :=
  (names.zip (row.map some) ++ (names.drop row.length).map fun k => (k, none)).reverse.lookup key

/-- The first record names the fields of the others; records without a field are left out. -/
def dictReader (D : Dialect) (text : List Char) :
    Option (List (String → Option (Option String))) :=
  (reader D text).map fun
    | [] => []
    | names :: rows => (rows.filter fun row => row ≠ []).map (dict names)

def Plain (D : Dialect) (f : String) : Prop :=
  ∀ c ∈ f.toList, c ≠ D.delimiter ∧ c ≠ D.quotechar ∧ c ≠ '\n' ∧ c ≠ '\r'

instance (D : Dialect) (f : String) : Decidable (Plain D f) := List.decidableBAll _ f.toList

def render (D : Dialect) : List String → List Char
  | [] => ['\n']
  | [f] => f.toList ++ ['\n']
  | f :: g :: fs => f.toList ++ D.delimiter :: render D (g :: fs)

section Plain

variable {D : Dialect} {f : String} {fs row : List String} {cs : List Char} {st : State}

theorem endsLine_eq_false {c : Char} : endsLine (some c) = false ↔ c ≠ '\n' ∧ c ≠ '\r' := by
  simp [endsLine]

theorem endsLine_delimiter : endsLine (some D.delimiter) = false :=
  endsLine_eq_false.mpr D.apart.2

theorem processAll_cons (r : Reader) (c : Option Char) (cs : List (Option Char)) :
    r.processAll D (c :: cs) = (r.process D c).bind fun r => r.processAll D cs := rfl

theorem processAll_append (r : Reader) (cs cs' : List (Option Char)) :
    r.processAll D (cs ++ cs') = (r.processAll D cs).bind fun r => r.processAll D cs' :=
  List.foldlM_append

theorem processAll_inField (h : ∀ c ∈ cs, c ≠ D.delimiter ∧ c ≠ D.quotechar ∧ c ≠ '\n' ∧ c ≠ '\r')
    (g : List Char) : (⟨.inField, g, fs⟩ : Reader).processAll D (cs.map some) =
      some ⟨.inField, g ++ cs, fs⟩ := by
  induction cs generalizing g with
  | nil => simp [Reader.processAll]
  | cons c cs ih =>
    obtain ⟨hd, -, hc⟩ := h c List.mem_cons_self
    have hprocess : (⟨.inField, g, fs⟩ : Reader).process D (some c) =
        some ⟨.inField, g ++ [c], fs⟩ := by
      simp [Reader.process, endsLine_eq_false.mpr hc, hd, Reader.addChar]
    rw [List.map_cons, processAll_cons, hprocess, Option.bind_some,
      ih fun c hc => h c (List.mem_cons_of_mem _ hc), List.append_assoc, List.singleton_append]

section Begin

variable (hst : st = .startField ∨ st = .startRecord)
include hst

/-- Where a field begins, a record does not end with its line. -/
theorem process_begin {c : Char} (hc : endsLine (some c) = false) :
    (⟨st, [], fs⟩ : Reader).process D (some c) =
      some (Reader.openField D ⟨st, [], fs⟩ (some c)) := by
  rcases hst with rfl | rfl
  · rfl
  · simp [Reader.process, hc]

theorem processAll_chars {c : Char} (h : ∀ x ∈ c :: cs, x ≠ D.delimiter ∧ x ≠ D.quotechar ∧
    x ≠ '\n' ∧ x ≠ '\r') : (⟨st, [], fs⟩ : Reader).processAll D ((c :: cs).map some) =
      some ⟨.inField, c :: cs, fs⟩ := by
  obtain ⟨hd, hq, hc⟩ := h c List.mem_cons_self
  have hopen : Reader.openField D ⟨st, [], fs⟩ (some c) = ⟨.inField, [c], fs⟩ := by
    simp [Reader.openField, endsLine_eq_false.mpr hc, hd, hq, Reader.addChar]
  rw [List.map_cons, processAll_cons, process_begin hst (endsLine_eq_false.mpr hc), hopen,
    Option.bind_some, processAll_inField fun c hc => h c (List.mem_cons_of_mem _ hc),
    List.singleton_append]

theorem processAll_next (hf : Plain D f) :
    (⟨st, [], fs⟩ : Reader).processAll D (f.toList.map some ++ [some D.delimiter]) =
      some ⟨.startField, [], fs ++ [f]⟩ := by
  have hend := endsLine_delimiter (D := D)
  cases hcs : f.toList with
  | nil =>
    obtain rfl : f = "" := String.toList_eq_nil_iff.mp hcs
    rw [List.map_nil, List.nil_append, processAll_cons, process_begin hst hend]
    simp [Reader.processAll, Reader.openField, hend, D.apart.1, Reader.nextField, Reader.saveField]
  | cons c cs =>
    have hf' : String.ofList (c :: cs) = f := by rw [← hcs, String.ofList_toList]
    rw [processAll_append, processAll_chars hst (hcs ▸ hf), Option.bind_some, processAll_cons]
    simp [Reader.processAll, Reader.process, hend, Reader.nextField, Reader.saveField, hf']

theorem processAll_last (hf : Plain D f) (hne : st = .startRecord → f ≠ "") :
    (⟨st, [], fs⟩ : Reader).processAll D (f.toList.map some ++ [some '\n', none]) =
      some ⟨.startRecord, [], fs ++ [f]⟩ := by
  cases hcs : f.toList with
  | nil =>
    obtain rfl : f = "" := String.toList_eq_nil_iff.mp hcs
    obtain rfl : st = .startField := hst.resolve_right fun h => hne h rfl
    rfl
  | cons c cs =>
    have hf' : String.ofList (c :: cs) = f := by rw [← hcs, String.ofList_toList]
    rw [processAll_append, processAll_chars hst (hcs ▸ hf), Option.bind_some, ← hf']
    rfl

theorem processAll_render (hrow : row ≠ []) (hplain : ∀ f ∈ row, Plain D f)
    (hne : st = .startRecord → row ≠ [""]) :
    (⟨st, [], fs⟩ : Reader).processAll D ((render D row).map some ++ [none]) =
      some ⟨.startRecord, [], fs ++ row⟩ := by
  induction row generalizing st fs with
  | nil => exact absurd rfl hrow
  | cons f row ih =>
    have hf := hplain f List.mem_cons_self
    cases row with
    | nil =>
      rw [render, List.map_append, List.append_assoc]
      exact processAll_last hst hf (by simpa using hne)
    | cons g row =>
      have hrest : (⟨.startField, [], fs ++ [f]⟩ : Reader).processAll D
          ((render D (g :: row)).map some ++ [none]) =
            some ⟨.startRecord, [], fs ++ [f] ++ (g :: row)⟩ :=
        ih (Or.inl rfl) (by simp) (fun g hg => hplain g (List.mem_cons_of_mem _ hg)) (by simp)
      have hsplit : (render D (f :: g :: row)).map some ++ [none] =
          (f.toList.map some ++ [some D.delimiter]) ++
            ((render D (g :: row)).map some ++ [none]) := by
        simp [render]
      rw [hsplit, processAll_append, processAll_next hst hf, Option.bind_some, hrest,
        List.append_assoc, List.singleton_append]

end Begin

theorem lines_append (h : ∀ c ∈ cs, c ≠ '\n' ∧ c ≠ '\r') (rest : List Char) :
    lines (cs ++ '\n' :: rest) = (cs ++ ['\n']) :: lines rest := by
  induction cs with
  | nil => simp [lines]
  | cons c cs ih =>
    obtain ⟨hn, hr⟩ := h c List.mem_cons_self
    rw [List.cons_append, lines, ih fun c hc => h c (List.mem_cons_of_mem _ hc)]
    · simp [hn, hr]
    · rintro cs' rfl -
      exact hr rfl

theorem render_eq (hrow : row ≠ []) (hplain : ∀ f ∈ row, Plain D f) :
    ∃ cs, render D row = cs ++ ['\n'] ∧ ∀ c ∈ cs, c ≠ '\n' ∧ c ≠ '\r' := by
  induction row with
  | nil => exact absurd rfl hrow
  | cons f row ih =>
    have hf := fun c hc => (hplain f List.mem_cons_self c hc).2.2
    cases row with
    | nil => exact ⟨f.toList, rfl, hf⟩
    | cons g row =>
      obtain ⟨cs, hcs, hplain'⟩ := ih (by simp) fun g hg => hplain g (List.mem_cons_of_mem _ hg)
      refine ⟨f.toList ++ D.delimiter :: cs, ?_, fun c hc => ?_⟩
      · rw [render, hcs, List.append_assoc, List.cons_append]
      · rcases List.mem_append.mp hc with hc | hc
        · exact hf c hc
        · rcases List.mem_cons.mp hc with rfl | hc
          · exact D.apart.2
          · exact hplain' c hc

/-- Records of plain fields are read as they were written. A single empty field is no record. -/
theorem reader_render {rows : List (List String)} (hplain : ∀ row ∈ rows, ∀ f ∈ row, Plain D f)
    (hrows : ∀ row ∈ rows, row ≠ [] ∧ row ≠ [""]) :
    reader D (rows.flatMap (render D)) = some rows := by
  rw [reader]
  induction rows with
  | nil => rfl
  | cons row rows ih =>
    obtain ⟨hrow, hne⟩ := hrows row List.mem_cons_self
    have hfields := hplain row List.mem_cons_self
    obtain ⟨cs, hcs, hbreaks⟩ := render_eq hrow hfields
    have hlines : lines ((row :: rows).flatMap (render D)) =
        render D row :: lines (rows.flatMap (render D)) := by
      rw [List.flatMap_cons, hcs, List.append_assoc]
      exact lines_append hbreaks _
    have hrest := ih (fun row h => hplain row (List.mem_cons_of_mem _ h)) fun row h =>
      hrows row (List.mem_cons_of_mem _ h)
    have hread : Reader.reset.processAll D ((render D row).map some ++ [none]) =
        some ⟨.startRecord, [], row⟩ := processAll_render (Or.inr rfl) hrow hfields fun _ => hne
    rw [hlines, records, hread, Option.bind_some, if_pos rfl, hrest, Option.map_some]

/-- Records of plain fields are read under the names in the first line. -/
theorem dictReader_render {names : List String} {rows : List (List String)}
    (hplain : ∀ row ∈ names :: rows, ∀ f ∈ row, Plain D f)
    (hrows : ∀ row ∈ names :: rows, row ≠ [] ∧ row ≠ [""]) :
    dictReader D (render D names ++ rows.flatMap (render D)) = some (rows.map (dict names)) := by
  have hfilter : rows.filter (fun row => row ≠ []) = rows :=
    List.filter_eq_self.mpr fun row h => by simpa using (hrows row (List.mem_cons_of_mem _ h)).1
  rw [dictReader, ← List.flatMap_cons, reader_render hplain hrows, Option.map_some]
  exact congrArg (fun rows => some (rows.map (dict names))) hfilter

end Plain

end Csv
