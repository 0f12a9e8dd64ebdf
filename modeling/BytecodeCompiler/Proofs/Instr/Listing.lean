import BytecodeCompiler.Proofs.Text.OneLine

-- The listing of a block mirrors how blocks and functions nest. Every instruction has its own
-- lines, one after the other. A block has a line more at either end, a function three lines, and
-- anything else is one line. What a block holds stands one step to the right of the block, but for
-- its labels.

namespace BytecodeCompiler

namespace Instr

mutual

/-- How many lines an instruction takes. -/
def height : Instr → Nat
  | .block body _ => 2 + heights body
  | .lambda _ body _ => 3 + heights body
  | _ => 1

def heights : List Instr → Nat
  | [] => 0
  | i :: is => i.height + heights is

end

/-- The text of the first line of an instruction. -/
def heading : Instr → String
  | .block .. => "begin"
  | .lambda signature _ _ => "lambda " ++ signature.text
  | i => i.text

/-- How far to the right an instruction starts in a block that stands so far to the right. -/
def startIn (indent : Nat) : Instr → Nat
  | .label .. => indent
  | _ => indent + 2

/-- Where the blocks of a listing are: the line that a block begins in, and how far to the right it
stands. A block is listed where it stands among the lines of the block that it is in, and the body
of a function under the line of the function. -/
inductive BlockAt (body : List Instr) : (row indent : Nat) → List Instr → Prop where
  | whole : BlockAt body 0 0 body
  | block {row indent : Nat} {inner : List Instr} {span : Span} (before after : List Instr) :
    BlockAt body row indent (before ++ .block inner span :: after) →
    BlockAt body (row + 1 + heights before) (indent + 2) inner
  | function {row indent : Nat} {inner : List Instr} {signature : Signature} {span : Span}
    (before after : List Instr) :
    BlockAt body row indent (before ++ .lambda signature inner span :: after) →
    BlockAt body (row + 1 + heights before + 1) (indent + 2 + 2) inner

/-! ## Lines -/

/-- A text so far to the right. -/
def indented (indent : Nat) (text : String) : String :=
  String.ofList (List.replicate indent ' ') ++ text

/-- The line without its line feed. -/
def Line.shown (l : Line) : String := indented l.indent l.text

theorem oneLine_indented (indent : Nat) {text : String} (h : OneLine text) :
    OneLine (indented indent text) := by
  rw [indented, OneLine.append_iff, OneLine.ofList_iff]
  exact ⟨by simp [List.mem_replicate], h⟩

theorem bodyLines_append (indent : Nat) (is js : List Instr) :
    bodyLines indent (is ++ js) = bodyLines indent is ++ bodyLines indent js := by
  induction is with
  | nil => rfl
  | cons i is ih => simp [bodyLines, ih]

theorem length_framed (indent : Nat) (inside : List Line) :
    (framed indent inside).length = 2 + inside.length := by
  simp [framed]
  omega

mutual

theorem length_lines (indent : Nat) (i : Instr) : (lines indent i).length = i.height := by
  cases i with
  | block body span =>
    have hbody := length_bodyLines (indent + indentStep) body
    rw [lines, length_framed, hbody, height]
  | lambda signature body span =>
    have hbody := length_bodyLines (indent + indentStep + indentStep) body
    rw [lines, List.length_cons, length_framed, hbody, height]
    omega
  | _ => rfl

theorem length_bodyLines (indent : Nat) (is : List Instr) :
    (bodyLines indent is).length = heights is := by
  cases is with
  | nil => rfl
  | cons i is =>
    have hfirst := length_lines indent i
    have hothers := length_bodyLines indent is
    rw [bodyLines, List.length_append, hfirst, hothers, heights]

end

/-- The lines of an instruction start with its heading. -/
theorem head?_lines (indent : Nat) (i : Instr) :
    (lines (indent + 2) i).head? = some ⟨i.startIn indent, i.heading⟩ := by
  cases i <;> rfl

/-! ## Blocks in the listing -/

/-- The lines of a block. -/
def blockLines (indent : Nat) (body : List Instr) : List Line :=
  framed indent (bodyLines (indent + 2) body)

theorem length_blockLines (indent : Nat) (body : List Instr) :
    (blockLines indent body).length = 2 + heights body := by
  rw [blockLines, length_framed, length_bodyLines]

/-- The lines of a block, parted at one of its instructions. -/
theorem blockLines_split (indent : Nat) (before after : List Instr) (i : Instr) :
    blockLines indent (before ++ i :: after) =
      (⟨indent, "begin"⟩ :: bodyLines (indent + 2) before) ++ lines (indent + 2) i ++
        (bodyLines (indent + 2) after ++ [⟨indent, "end"⟩]) := by
  simp [blockLines, framed, bodyLines_append, bodyLines]

theorem lines_block (indent : Nat) (body : List Instr) (span : Span) :
    lines indent (.block body span) = blockLines indent body := rfl

theorem lines_lambda (indent : Nat) (signature : Signature) (body : List Instr) (span : Span) :
    lines indent (.lambda signature body span) =
      ⟨indent, "lambda " ++ signature.text⟩ :: blockLines (indent + 2) body := rfl

/-- A block stands in the listing of the whole with exactly its own lines. -/
theorem BlockAt.lines_eq {body inner : List Instr} {row indent : Nat}
    (h : BlockAt body row indent inner) :
    ∃ above below, blockLines 0 body = above ++ blockLines indent inner ++ below ∧
      above.length = row := by
  induction h with
  | whole => exact ⟨[], [], by simp, rfl⟩
  | @block row indent inner span before after _ ih =>
    obtain ⟨above, below, hlines, habove⟩ := ih
    rw [blockLines_split, lines_block] at hlines
    refine ⟨above ++ ⟨indent, "begin"⟩ :: bodyLines (indent + 2) before,
      bodyLines (indent + 2) after ++ ⟨indent, "end"⟩ :: below, by simp [hlines], ?_⟩
    simp [length_bodyLines, habove]
    omega
  | @function row indent inner signature span before after _ ih =>
    obtain ⟨above, below, hlines, habove⟩ := ih
    rw [blockLines_split, lines_lambda] at hlines
    refine ⟨above ++ (⟨indent, "begin"⟩ :: bodyLines (indent + 2) before) ++
      [⟨indent + 2, "lambda " ++ signature.text⟩],
      bodyLines (indent + 2) after ++ ⟨indent, "end"⟩ :: below, by simp [hlines], ?_⟩
    simp [length_bodyLines, habove]
    omega

theorem getElem?_of_split {lines above below : List Line} {l : Line} {row : Nat}
    (hlines : lines = above ++ l :: below) (hrow : above.length = row) : lines[row]? = some l := by
  rw [hlines, ← hrow, List.getElem?_append_right (Nat.le_refl _), Nat.sub_self]
  rfl

theorem BlockAt.begin_line {body inner : List Instr} {row indent : Nat}
    (h : BlockAt body row indent inner) : (blockLines 0 body)[row]? = some ⟨indent, "begin"⟩ := by
  obtain ⟨above, below, hlines, habove⟩ := h.lines_eq
  have hsplit : blockLines 0 body = above ++
      ⟨indent, "begin"⟩ :: (bodyLines (indent + 2) inner ++ ⟨indent, "end"⟩ :: below) := by
    rw [hlines]
    simp [blockLines, framed]
  exact getElem?_of_split hsplit habove

theorem BlockAt.end_line {body inner : List Instr} {row indent : Nat}
    (h : BlockAt body row indent inner) :
    (blockLines 0 body)[row + 1 + heights inner]? = some ⟨indent, "end"⟩ := by
  obtain ⟨above, below, hlines, habove⟩ := h.lines_eq
  have hsplit : blockLines 0 body =
      (above ++ ⟨indent, "begin"⟩ :: bodyLines (indent + 2) inner) ++ ⟨indent, "end"⟩ :: below := by
    rw [hlines]
    simp [blockLines, framed]
  refine getElem?_of_split hsplit ?_
  rw [List.length_append, List.length_cons, length_bodyLines, habove]
  omega

/-- An instruction of a block starts after the lines of the instructions before it. -/
theorem BlockAt.start_line {body before after : List Instr} {i : Instr} {row indent : Nat}
    (h : BlockAt body row indent (before ++ i :: after)) :
    (blockLines 0 body)[row + 1 + heights before]? = some ⟨i.startIn indent, i.heading⟩ := by
  obtain ⟨above, below, hlines, habove⟩ := h.lines_eq
  obtain ⟨others, hi⟩ := List.head?_eq_some_iff.mp (head?_lines indent i)
  have hsplit : blockLines 0 body = (above ++ ⟨indent, "begin"⟩ :: bodyLines (indent + 2) before) ++
      ⟨i.startIn indent, i.heading⟩ ::
        (others ++ bodyLines (indent + 2) after ++ ⟨indent, "end"⟩ :: below) := by
    rw [hlines, blockLines_split, hi]
    simp
  refine getElem?_of_split hsplit ?_
  rw [List.length_append, List.length_cons, length_bodyLines, habove]
  omega

/-! ## The text of a listing -/

theorem oneLine_framed (indent : Nat) {inside : List Line} (h : ∀ l ∈ inside, OneLine l.text) :
    ∀ l ∈ framed indent inside, OneLine l.text := by
  have hend : ∀ l ∈ [(⟨indent, "end"⟩ : Line)], OneLine l.text :=
    List.forall_mem_singleton.mpr (by decide : OneLine "end")
  exact List.forall_mem_cons.mpr
    ⟨(by decide : OneLine "begin"), List.forall_mem_append.mpr ⟨h, hend⟩⟩

mutual

theorem oneLine_lines (indent : Nat) (i : Instr) (h : ∀ n ∈ i.identsIn, n.OnOneLine) :
    ∀ l ∈ lines indent i, OneLine l.text := by
  cases i with
  | block body span =>
    exact oneLine_framed indent (oneLine_bodyLines (indent + indentStep) body h)
  | lambda signature body span =>
    obtain ⟨hsignature, hbody⟩ := List.forall_mem_append.mp h
    have hheading : OneLine ("lambda " ++ signature.text) := by
      simp +decide [oneLine_signature hsignature]
    exact List.forall_mem_cons.mpr
      ⟨hheading, oneLine_framed _ (oneLine_bodyLines (indent + indentStep + indentStep) body hbody)⟩
  | _ => exact List.forall_mem_singleton.mpr (oneLine_text _ h)

theorem oneLine_bodyLines (indent : Nat) (is : List Instr)
    (h : ∀ n ∈ identsInAll is, n.OnOneLine) : ∀ l ∈ bodyLines indent is, OneLine l.text := by
  cases is with
  | nil => exact List.forall_mem_nil _
  | cons i is =>
    obtain ⟨hfirst, hothers⟩ := List.forall_mem_append.mp h
    exact List.forall_mem_append.mpr
      ⟨oneLine_lines indent i hfirst, oneLine_bodyLines indent is hothers⟩

end

/-- If no name in a block holds a line feed, the listing of the block is a row of lines that each
end with a line feed and hold no other: two for the block itself, and as many as its instructions
take. Every block in it, however deep, begins and ends with lines that stand as far to the right as
the block. Between them are the lines of its instructions, one after the other, and each of these
starts one step further to the right, unless it is a label. -/
theorem listing_mirrors_blocks (body : List Instr)
    (h : ∀ name, .name name ∈ identsInAll body → '\n' ∉ name.toList) :
    ∃ rows : List String, listing body = String.join (rows.map (· ++ "\n")) ∧
      (∀ row ∈ rows, '\n' ∉ row.toList) ∧ rows.length = 2 + heights body ∧
      ∀ row indent inner, BlockAt body row indent inner →
        rows[row]? = some (indented indent "begin") ∧
        rows[row + 1 + heights inner]? = some (indented indent "end") ∧
        ∀ before i after, inner = before ++ i :: after →
          rows[row + 1 + heights before]? = some (indented (i.startIn indent) i.heading) := by
  have hlines : ∀ l ∈ blockLines 0 body, OneLine l.text :=
    oneLine_framed 0 (oneLine_bodyLines 2 body fun i hi name hname => h name (hname ▸ hi))
  refine ⟨(blockLines 0 body).map Line.shown, ?_, ?_, ?_, ?_⟩
  · rw [List.map_map]
    rfl
  · intro row hrow
    obtain ⟨l, hl, rfl⟩ := List.mem_map.mp hrow
    exact oneLine_indented l.indent (hlines l hl)
  · rw [List.length_map, length_blockLines]
  · intro row indent inner hblock
    refine ⟨?_, ?_, ?_⟩
    · rw [List.getElem?_map, hblock.begin_line]
      rfl
    · rw [List.getElem?_map, hblock.end_line]
      rfl
    · rintro before i after rfl
      rw [List.getElem?_map, hblock.start_line]
      rfl

/-- A loop whose label is followed by a function that gives back a text of two lines. -/
def twoLineLoop : List Instr :=
  [.block [.label (.name "top") .none,
      .lambda ⟨[], .string, false⟩ [.ret (.value (.string "a\nb") .none) .none] .none,
      .jump (.name "top") .none] .none]

theorem listing_mirrors_blocks_twoLineLoop :
    (∀ name, .name name ∈ identsInAll twoLineLoop → '\n' ∉ name.toList) ∧
    BlockAt twoLineLoop 4 6 [.ret (.value (.string "a\nb") .none) .none] ∧
    ∃ rows : List String, listing twoLineLoop = String.join (rows.map (· ++ "\n")) ∧
      rows.length = 10 ∧ rows[2]? = some "  => label top:" ∧
      rows[3]? = some "    lambda () => string" ∧ rows[4]? = some "      begin" ∧
      rows[5]? = some "        ret String(\"a\\nb\")" ∧ rows[6]? = some "      end" := by
  have hnames : ∀ name, .name name ∈ identsInAll twoLineLoop → '\n' ∉ name.toList := by
    have hidents : identsInAll twoLineLoop = [.name "top", .name "top"] := rfl
    rw [hidents]
    intro name hname
    obtain rfl : name = "top" := by simpa using hname
    decide
  have hloop : BlockAt twoLineLoop 1 2 _ := .block [] [] .whole
  have hfunction : BlockAt twoLineLoop 4 6 _ := .function [_] [_] hloop
  obtain ⟨rows, htext, -, hlength, hblocks⟩ := listing_mirrors_blocks twoLineLoop hnames
  obtain ⟨-, -, hinLoop⟩ := hblocks 1 2 _ hloop
  obtain ⟨hbegin, hend, hinFunction⟩ := hblocks 4 6 _ hfunction
  refine ⟨hnames, hfunction, rows, htext, hlength, ?_, ?_, ?_, ?_, ?_⟩
  · exact hinLoop [] _ _ rfl
  · exact hinLoop [_] _ _ rfl
  · exact hbegin
  · exact hinFunction [] _ _ rfl
  · exact hend

end Instr

end BytecodeCompiler
