import Mathlib.Data.List.ModifyLast
import Xv6.Flow
import Xv6.ShellLines

namespace Xv6

namespace Flow

abbrev lineLength : Nat := 1000

/-- The call fgets with room for so many characters: the line with its end, and the rest of the
file. -/
def fgets : Nat → Text → Text × Text
  | 0, text => ([], text)
  | _ + 1, [] => ([], [])
  | room + 1, c :: text => if c = '\n' then ([c], text)
    else (c :: (fgets room text).1, (fgets room text).2)

def linesFrom : Nat → Text → List Text
  | 0, _ => []
  | _ + 1, [] => []
  | calls + 1, c :: text =>
    cstr (fgets (lineLength - 1) (c :: text)).1 ::
      linesFrom calls (fgets (lineLength - 1) (c :: text)).2

/-- The strings that the loop of file gets from a file. -/
def lines (text : Text) : List Text := linesFrom text.length text

/-- A field of an entry of one of the three tables. -/
inductive Field
  | nodeName
  | command
  | errorTo
  | fileName
  | inputFile
  | outputFile
  | pipeName
  | fromName
  | toName
  | concatName
  | partCount
  | part (i : Nat)

namespace Field

def size : Field → Nat
  | command => commandLength
  | inputFile => 4
  | outputFile => 4
  | partCount => 4
  | _ => nameSize

def inArray : Field → Bool
  | part i => i < maxParts
  | _ => true

end Field

/-- So many bytes from the start of a field of the entry at an index, which the source does not
check. -/
structure Write where
  field : Field
  index : Int
  bytes : Nat

/-- The table has the entry, the entry has the field, and the bytes are in the field. -/
def Write.Inside (w : Write) : Prop :=
  0 ≤ w.index ∧ w.index < maxNodes ∧ w.field.inArray = true ∧ w.bytes ≤ w.field.size

instance : DecidablePred Write.Inside := fun w =>
  inferInstanceAs (Decidable
    (0 ≤ w.index ∧ w.index < maxNodes ∧ w.field.inArray = true ∧ w.bytes ≤ w.field.size))

/-- The call strcpy writes the value and a zero byte. -/
def Write.ofStrcpy (field : Field) (index : Int) (value : Text) : Write :=
  ⟨field, index, value.length + 1⟩

/-- The variables that the indices are made of. -/
structure Counters where
  nodeCount : Nat := 0
  pipeCount : Nat := 0
  concatCount : Nat := 0
  concatNow : Int := -1
  partIndex : Nat := 0
deriving DecidableEq

namespace Counters

variable (c : Counters)

def writes (value : Text) : Keyword → List Write
  | .node => [.ofStrcpy .nodeName c.nodeCount value]
  | .command => [.ofStrcpy .command c.nodeCount value]
  | .pipe => [.ofStrcpy .pipeName c.pipeCount value]
  | .fromPipe => [.ofStrcpy .fromName c.pipeCount value]
  | .toPipe => [.ofStrcpy .toName c.pipeCount value]
  | .concatenate => [.ofStrcpy .concatName c.concatCount value]
  | .parts => [⟨.partCount, c.concatNow, 4⟩]
  | .part => [.ofStrcpy (.part c.partIndex) c.concatNow value]
  | .stderr => [.ofStrcpy .errorTo (c.nodeCount - 1) value]
  | .file => [.ofStrcpy .fileName (c.nodeCount - 1) value, ⟨.inputFile, c.nodeCount - 1, 4⟩]
  | .name => [.ofStrcpy .fileName (c.nodeCount - 1) value, ⟨.outputFile, c.nodeCount - 1, 4⟩]

def advance : Keyword → Counters
  | .command => { c with nodeCount := c.nodeCount + 1 }
  | .toPipe => { c with pipeCount := c.pipeCount + 1 }
  | .concatenate =>
    { c with concatCount := c.concatCount + 1, concatNow := c.concatCount, partIndex := 0 }
  | .part => { c with partIndex := c.partIndex + 1 }
  | _ => c

/-- What the source would have to check before a line with a keyword and a value. -/
def Fits (value : Text) : Keyword → Prop
  | .node => c.nodeCount < maxNodes ∧ value.length < nameSize
  | .command => c.nodeCount < maxNodes ∧ value.length < commandLength
  | .pipe => c.pipeCount < maxNodes ∧ value.length < nameSize
  | .fromPipe => c.pipeCount < maxNodes ∧ value.length < nameSize
  | .toPipe => c.pipeCount < maxNodes ∧ value.length < nameSize
  | .concatenate => c.concatCount < maxNodes ∧ value.length < nameSize
  | .parts => 0 < c.concatCount
  | .part => 0 < c.concatCount ∧ c.partIndex < maxParts ∧ value.length < nameSize
  | .stderr => 0 < c.nodeCount ∧ value.length < nameSize
  | .file => 0 < c.nodeCount ∧ value.length < nameSize
  | .name => 0 < c.nodeCount ∧ value.length < nameSize

end Counters

/-- How the function file ends: it returns, exits, reads from a null pointer, or writes outside of a
field of a table, after which nothing is known. -/
inductive Outcome
  | done (c : Counters)
  | exit (status : Nat)
  | null
  | outside
deriving DecidableEq

def Outcome.result : Outcome → Option Counters
  | .done c => some c
  | _ => none

namespace Bounds

def fileLine (c : Counters) (line : Text) : Outcome :=
  match entry line with
  | .skip => .done c
  | .null => .null
  | .set k value => if ∀ w ∈ c.writes value k, w.Inside then .done (c.advance k) else .outside

def fileLines : Counters → List Text → Outcome
  | c, [] => .done c
  | c, line :: rest =>
    match fileLine c line with
    | .done c => fileLines c rest
    | o => o

/-- The function file, on the contents of the file if it can be opened. -/
def file : Option Text → Outcome
  | none => .exit 1
  | some text => fileLines {} (lines text)

end Bounds

def Tables.counters (t : Tables) : Counters where
  nodeCount := t.nodes.length
  pipeCount := t.pipes.length
  concatCount := t.concatenations.length
  concatNow := (t.concatenations.length : Int) - 1
  partIndex := t.partIndex

def Entry.key : Entry → Option Keyword
  | set k _ => some k
  | _ => none

/-- How often a keyword is given. -/
def given (k : Keyword) (lines : List Text) : Nat :=
  lines.countP fun line => (entry line).key = some k

/-- The part lines behind the last concatenate line. -/
def partsSince (lines : List Text) : Nat :=
  given .part (lines.reverse.takeWhile fun line => (entry line).key ≠ some .concatenate)

/-- What the counters are after so many lines, by the lines alone. -/
def counted (lines : List Text) : Counters where
  nodeCount := given .command lines
  pipeCount := given .toPipe lines
  concatCount := given .concatenate lines
  concatNow := (given .concatenate lines : Int) - 1
  partIndex := partsSince lines

theorem given_concat (k : Keyword) (lines : List Text) (line : Text) :
    given k (lines ++ [line]) = given k lines + if (entry line).key = some k then 1 else 0 := by
  simp [given, List.countP_append, List.countP_singleton]

theorem partsSince_concat (lines : List Text) (line : Text) :
    partsSince (lines ++ [line]) =
      if (entry line).key = some .concatenate then 0
      else partsSince lines + if (entry line).key = some .part then 1 else 0 := by
  unfold partsSince
  rw [List.reverse_append, List.reverse_singleton, List.singleton_append, List.takeWhile_cons]
  by_cases hconcat : (entry line).key = some .concatenate
  · simp [hconcat, given]
  · simp [hconcat, given, List.countP_cons]

theorem counted_set {line : Text} {k : Keyword} {value : Text} (lines : List Text)
    (h : entry line = .set k value) :
    counted (lines ++ [line]) = (counted lines).advance k := by
  have hkey : (entry line).key = some k := by rw [h]; rfl
  unfold counted
  simp only [given_concat, partsSince_concat, hkey]
  cases k <;> simp [Counters.advance]

theorem counted_skip {line : Text} (lines : List Text) (h : entry line = .skip) :
    counted (lines ++ [line]) = counted lines := by
  have hkey : (entry line).key = none := by rw [h]; rfl
  unfold counted
  simp [given_concat, partsSince_concat, hkey]

namespace Counters

/-- What holds of the counters as long as every write was inside. -/
structure Wf (c : Counters) : Prop where
  now : c.concatNow = (c.concatCount : Int) - 1
  nodes : c.nodeCount ≤ maxNodes
  concats : c.concatCount ≤ maxNodes

variable {c : Counters} {k : Keyword} {value : Text}

theorem Wf.advance (h : c.Wf) (hfits : c.Fits value k) : (c.advance k).Wf := by
  obtain ⟨hnow, hnodes, hconcats⟩ := h
  cases k with
  | command => exact ⟨hnow, hfits.1, hconcats⟩
  | concatenate => exact ⟨by simp [Counters.advance], hnodes, hfits.1⟩
  | _ => exact ⟨hnow, hnodes, hconcats⟩

theorem Wf.inside_iff (h : c.Wf) : (∀ w ∈ c.writes value k, w.Inside) ↔ c.Fits value k := by
  obtain ⟨hnow, hnodes, hconcats⟩ := h
  cases k <;>
    simp only [writes, Fits, Write.Inside, Write.ofStrcpy, Field.inArray, Field.size,
      List.forall_mem_cons,
      List.not_mem_nil, false_implies, implies_true, and_true, decide_eq_true_eq, true_and] <;>
    omega

end Counters

namespace Bounds

variable {c : Counters} {line value : Text} {k : Keyword}

theorem fileLine_fits (h : c.Wf) (hset : entry line = .set k value) (hfits : c.Fits value k) :
    fileLine c line = .done (c.advance k) := by
  simp only [fileLine, hset]
  exact if_pos (h.inside_iff.mpr hfits)

theorem fileLine_outside (h : c.Wf) (hset : entry line = .set k value) (hfits : ¬ c.Fits value k) :
    fileLine c line = .outside := by
  simp only [fileLine, hset]
  exact if_neg fun hinside => hfits (h.inside_iff.mp hinside)

theorem fileLine_wf {c' : Counters} (h : c.Wf) (hline : fileLine c line = .done c') : c'.Wf := by
  cases hentry : entry line with
  | skip =>
    obtain rfl : c = c' := by simpa [fileLine, hentry] using hline
    exact h
  | null => simp [fileLine, hentry] at hline
  | set k value =>
    by_cases hfits : c.Fits value k
    · rw [fileLine_fits h hentry hfits] at hline
      obtain rfl := Outcome.done.inj hline
      exact h.advance hfits
    · rw [fileLine_outside h hentry hfits] at hline
      cases hline

end Bounds

theorem length_modifyLast {α : Type} (g : α → α) (l : List α) :
    (l.modifyLast g).length = l.length := by
  rcases List.eq_nil_or_concat l with rfl | ⟨l, a, rfl⟩
  · rfl
  · simp [List.modifyLast_concat]

namespace Tables

variable {t t' : Tables} {value : Text} {k : Keyword}

theorem assign_fits (h : t.counters.Fits value k) :
    (t.assign value k).map counters = some (t.counters.advance k) := by
  cases k <;> simp only [counters, Counters.Fits, List.length_pos_iff] at h <;>
    simp [assign, strcpy, h, nextNode, nextPipe, lastNode, lastConcat, counters, Counters.advance,
      length_modifyLast]

theorem assign_not_fits (h : ¬ t.counters.Fits value k) : t.assign value k = none := by
  cases k <;> simp only [counters, Counters.Fits, List.length_pos_iff] at h <;>
    simp [assign, strcpy, nextNode, nextPipe, lastNode, lastConcat] <;> grind

end Tables

/-- The tables and the counters go on together, or neither does. -/
theorem fileLine_refines {t : Tables} (h : t.counters.Wf) (line : Text) :
    (fileLine t line).map Tables.counters = (Bounds.fileLine t.counters line).result := by
  rw [fileLine]
  cases hentry : entry line with
  | skip => simp [Bounds.fileLine, hentry, Outcome.result, Tables.enter]
  | null => simp [Bounds.fileLine, hentry, Outcome.result, Tables.enter]
  | set k value =>
    by_cases hfits : t.counters.Fits value k
    · rw [Bounds.fileLine_fits h hentry hfits]
      exact Tables.assign_fits hfits
    · rw [Bounds.fileLine_outside h hentry hfits, Tables.enter, Tables.assign_not_fits hfits]
      rfl

theorem foldlM_fileLine_refines (lines : List Text) {t : Tables} (h : t.counters.Wf) :
    (lines.foldlM fileLine t).map Tables.counters = (Bounds.fileLines t.counters lines).result := by
  induction lines generalizing t with
  | nil => rfl
  | cons line lines ih =>
    have hstep := fileLine_refines h line
    rw [List.foldlM_cons, Bounds.fileLines]
    cases hline : Bounds.fileLine t.counters line with
    | done c =>
      rw [hline] at hstep
      obtain ⟨t', ht', rfl⟩ := Option.map_eq_some_iff.mp hstep
      rw [ht']
      exact ih (Bounds.fileLine_wf h hline)
    | _ =>
      rw [hline] at hstep
      rw [Option.map_eq_none_iff.mp hstep]
      rfl

/-- The lists of the tables, which stop at a read from a null pointer and at a write outside, are
what the source computes as long as it does neither. -/
theorem file_refines (text : Text) :
    (file (lines text)).map Tables.counters = (Bounds.file (some text)).result :=
  foldlM_fileLine_refines (lines text) ⟨rfl, Nat.zero_le _, Nat.zero_le _⟩

/-- A line that is reached: no line before it reads from a null pointer. -/
def Reached (lines before : List Text) (line : Text) : Prop :=
  before ++ [line] <+: lines ∧ ∀ earlier ∈ before, entry earlier ≠ .null

theorem reached_cons {first line : Text} {rest before : List Text} :
    Reached (first :: rest) before line ↔
      before = [] ∧ line = first ∨
        ∃ before', before = first :: before' ∧ entry first ≠ .null ∧ Reached rest before' line := by
  cases before with
  | nil => simp [Reached]
  | cons earlier before =>
    simp only [Reached, List.cons_append, List.cons_prefix_cons, List.forall_mem_cons]
    constructor
    · rintro ⟨⟨rfl, hrest⟩, hfirst, hbefore⟩
      exact .inr ⟨before, rfl, hfirst, hrest, hbefore⟩
    · rintro (⟨h, _⟩ | ⟨before', h, hfirst, hrest, hbefore⟩)
      · cases h
      · obtain ⟨rfl, rfl⟩ := List.cons.inj h
        exact ⟨⟨rfl, hrest⟩, hfirst, hbefore⟩

/-- Every line that is reached fits, behind the lines that were read. -/
def AllFit (seen rest : List Text) : Prop :=
  ∀ before line, Reached rest before line → ∀ k value, entry line = .set k value →
    (counted (seen ++ before)).Fits value k

theorem allFit_cons {seen rest : List Text} {first : Text} :
    AllFit seen (first :: rest) ↔
      (∀ k value, entry first = .set k value → (counted seen).Fits value k) ∧
        (entry first ≠ .null → AllFit (seen ++ [first]) rest) := by
  constructor
  · intro h
    refine ⟨fun k value hset => ?_, fun hfirst before line hreached k value hset => ?_⟩
    · simpa using h [] first (reached_cons.mpr (.inl ⟨rfl, rfl⟩)) k value hset
    · simpa using h (first :: before) line (reached_cons.mpr (.inr ⟨before, rfl, hfirst, hreached⟩))
        k value hset
  · rintro ⟨hnow, hlater⟩ before line hreached k value hset
    rcases reached_cons.mp hreached with ⟨rfl, rfl⟩ | ⟨before, rfl, hfirst, hreached⟩
    · simpa using hnow k value hset
    · simpa using hlater hfirst before line hreached k value hset

namespace Bounds

theorem fileLines_iff (rest seen : List Text) (h : (counted seen).Wf) :
    fileLines (counted seen) rest ≠ .outside ↔ AllFit seen rest := by
  induction rest generalizing seen with
  | nil => simp [fileLines, AllFit, Reached]
  | cons line rest ih =>
    rw [fileLines, allFit_cons]
    cases hentry : entry line with
    | null => simp [fileLine, hentry]
    | skip =>
      have hnext := counted_skip seen hentry
      have hrest := ih (seen ++ [line]) (hnext ▸ h)
      rw [hnext] at hrest
      simpa [fileLine, hentry] using hrest
    | set k value =>
      have hnext := counted_set seen hentry
      by_cases hfits : (counted seen).Fits value k
      · have hrest := ih (seen ++ [line]) (hnext ▸ h.advance hfits)
        rw [hnext] at hrest
        simpa [fileLine_fits h hentry hfits, hfits] using hrest
      · simp [fileLine_outside h hentry hfits, hfits]

/-- Which files keep the parser inside of its tables. -/
theorem file_inside_iff (contents : Option Text) :
    file contents ≠ .outside ↔
      ∀ text ∈ contents, ∀ before line, Reached (lines text) before line →
        ∀ k value, entry line = .set k value →
        (counted before).Fits value k := by
  cases contents with
  | none => simp [file]
  | some text =>
    have hwf : (counted []).Wf := ⟨rfl, Nat.zero_le _, Nat.zero_le _⟩
    rw [file, show ({} : Counters) = counted [] from rfl, fileLines_iff _ _ hwf]
    simp only [Option.mem_def, Option.some.injEq, forall_eq', AllFit, List.nil_append]

/-- Four lines that the parser takes for good: an attribute before any node, a part before any
concatenation, an eleventh part, and a value of the size of its field. -/
theorem file_leaves_tables :
    file (some "stderr=x\n".toList) = .outside ∧
    file (some "part_0=x\n".toList) = .outside ∧
    file (some ("concatenate=c\n".toList ++ (List.replicate 11 "part_=x\n".toList).flatten)) =
      .outside ∧
    file (some ("node=".toList ++ List.replicate 50 'a' ++ ['\n'])) = .outside := by
  decide +kernel

end Bounds

end Flow

end Xv6
