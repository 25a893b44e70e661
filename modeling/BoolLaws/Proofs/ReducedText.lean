import BoolLaws.CommandLine
import BoolLaws.Proofs.NormalForm
import BoolLaws.Proofs.Regrouping

/-!
# The text of reduced expressions

A reduction leaves no exclusive disjunctions, so its result is printed with all the parentheses that it
needs. The text of a result is read as an expression that has the term at which the reduction ended, the
result as its canonical form, and the meaning of the expression that was reduced
(`Reducer.exists_parse_reduced`).

A line that the command line prints is one of a few (`CommandLine.Reports`), and only the line of the
result starts with `reduced = `; what follows there means what the given text means, however the arguments
are read (`reduced_text_denotes`).
-/

namespace BoolLaws

open Term Text

/-! ### Expressions without exclusive disjunctions -/

namespace Expr

variable {e : Expr}

/-- No connective is an exclusive disjunction. -/
def XorFree : Expr → Prop
  | .bin c l r => c ≠ .xor ∧ l.XorFree ∧ r.XorFree
  | .not e => e.XorFree
  | .paren e => e.XorFree
  | _ => True

theorem XorFree.not_headedBy (h : e.XorFree) : ¬ e.headedBy .xor := by
  cases e with
  | bin c l r => simpa [headedBy] using h.1
  | _ => simp [headedBy]

theorem XorFree.avoids (h : e.XorFree) : e.Avoids .and .xor ∧ e.Avoids .xor .or := by
  induction e with
  | bin c l r ihl ihr =>
    obtain ⟨hc, hl, hr⟩ := h
    obtain ⟨hla, hlx⟩ := ihl hl
    obtain ⟨hra, hrx⟩ := ihr hr
    exact ⟨⟨fun _ => ⟨hl.not_headedBy, hr.not_headedBy⟩, hla, hra⟩, fun h => absurd h hc, hlx, hrx⟩
  | not e ih => exact ih h
  | paren e ih => exact ih h
  | _ => exact ⟨trivial, trivial⟩

end Expr

namespace Term

variable {c : Connective} {t : Term} {ts : List Term}

theorem xorFree_toExprAll (hc : c ≠ .xor) (h : ∀ t ∈ ts, t.toExpr.XorFree) :
    (toExprAll c ts).XorFree := by
  induction ts with
  | nil => trivial
  | cons t ts ih =>
    have ht := h t (by simp)
    cases ts with
    | nil => exact ht
    | cons u us => exact ⟨hc, ht, ih fun w hw => h w (List.mem_cons_of_mem _ hw)⟩

theorem XorFree.toExpr (hx : XorFree t) : t.toExpr.XorFree := by
  induction t with
  | const b => trivial
  | var x => trivial
  | not t ih => exact ih (Every.not_iff.1 hx).2
  | nary c ts ih =>
    refine xorFree_toExprAll ?_ fun t ht => ih t ht (hx.operands t ht)
    rintro rfl
    exact hx.head rfl

end Term

/-! ### Results -/

/-- The text of a result is read as an expression with the term at which the reduction ended. -/
theorem Reducer.exists_parse_reduced {e : Expr} {limits : Limits} {out : Expr}
    (hn : ∀ x ∈ e.names, isName x) (h : (ofExpr e limits).reduce.2 = .ok out) :
    ∃ e', parse out.render = .ok e' ∧ e'.canonical = out ∧
      Term.ofExpr e' = (ofExpr e limits).reduce.1.state ∧ e.SameMeaning e'.names fun v => e'.evaluate v := by
  obtain ⟨hout, k, trail, hr, -⟩ := reduces_of_reduce h
  have hstart : IsCanonical (ofExpr e limits).state := isCanonical_ofExpr e
  have hstands := (reduce_faithful (faithful_ofExpr e limits)).1.standsFor
  have hc := hr.isCanonical hstart
  have hx := hr.xorFree hstart
  generalize (ofExpr e limits).reduce.1.state = w at hout hstands hc hx ⊢
  obtain ⟨ha, hxo⟩ := hx.toExpr.avoids
  obtain ⟨e', hp, ho⟩ := Expr.exists_parse_render_of_avoids (e := w.toExpr)
    (fun x hxn => hn x ((mem_names_ofExpr e).1 (hstands.names x ((mem_names_toExpr w).1 hxn)))) ha hxo
  have hw : Term.ofExpr e' = w := by rw [ho, ofExpr_toExpr hc.wide, hc.merged.flatten_eq]
  refine ⟨e', hout ▸ hp, ?_, hw, Expr.sameMeaning_of_standsFor (hw ▸ hstands)⟩
  rw [Expr.canonical, hw, hc.canonical_eq, hout]

/-! ### Lines of tables -/

namespace Table

variable {t : Table} {c sep : Char} {cells : List (List Char)}

theorem mem_intercalate (h : c ∈ [sep].intercalate cells) : c = sep ∨ ∃ cell ∈ cells, c ∈ cell := by
  induction cells with
  | nil => simp at h
  | cons cell cells ih =>
    cases cells with
    | nil => exact .inr ⟨cell, by simp, by simpa using h⟩
    | cons cell' cells =>
      rw [List.intercalate_cons_cons, List.append_assoc, List.mem_append] at h
      rcases h with h | h
      · exact .inr ⟨cell, by simp, h⟩
      rcases List.mem_cons.1 h with rfl | h
      · exact .inl rfl
      · rcases ih h with rfl | ⟨d, hd, hcd⟩
        · exact .inl rfl
        · exact .inr ⟨d, List.mem_cons_of_mem _ hd, hcd⟩

theorem mem_pad {text : List Char} {width : Nat} (h : c ∈ pad text width) : c = ' ' ∨ c ∈ text := by
  have := List.mem_of_mem_drop h
  simp only [List.mem_append, List.mem_replicate] at this
  tauto

theorem mem_cells {widths : List Nat} {row : Row} {cell : List Char} (h : cell ∈ Table.cells widths row) :
    ∃ (b : Bool) (w : Nat), cell = pad [if b then '1' else '0'] w := by
  rw [Table.cells, ← List.map_uncurry_zip_eq_zipWith] at h
  obtain ⟨⟨b, w⟩, -, rfl⟩ := List.mem_map.1 h
  exact ⟨b, w, rfl⟩

/-- The line of a row has nothing in it but separators, blanks and digits. -/
theorem mem_intercalate_cells {widths : List Nat} {row : Row} (h : c ∈ [sep].intercalate (Table.cells widths row)) :
    c = sep ∨ c = ' ' ∨ c = '0' ∨ c = '1' := by
  rcases mem_intercalate h with rfl | ⟨cell, hcell, hc⟩
  · exact .inl rfl
  · obtain ⟨b, w, rfl⟩ := mem_cells hcell
    rcases mem_pad hc with rfl | hc
    · exact .inr (.inl rfl)
    · cases b <;> simp_all

theorem head?_intercalate {cell : List Char} : ([sep].intercalate ((c :: cell) :: cells)).head? = some c := by
  cases cells with
  | nil => simp
  | cons cell' cells => simp [List.intercalate_cons_cons]

/-- The headers come after a blank. -/
theorem head?_headers : ([sep].intercalate t.headers).head? = some ' ' := by
  unfold headers
  cases t.columns with
  | nil => exact head?_intercalate
  | cons x xs => exact head?_intercalate

/-- No line of a table starts with a letter. -/
theorem not_isAlpha_of_mem_lines {text : String} (h : text ∈ t.lines false)
    (hc : text.toList.head? = some c) : ¬ c.isAlpha := by
  have hmem := List.mem_of_mem_head? hc
  simp only [lines, Bool.false_eq_true, if_false, List.nil_append, List.mem_cons, List.mem_map] at h
  rcases h with rfl | rfl | ⟨row, -, rfl⟩
  · rw [line, String.toList_ofList, head?_headers] at hc
    obtain rfl := Option.some.inj hc
    decide
  · rw [line, String.toList_ofList] at hmem
    rcases mem_intercalate hmem with rfl | ⟨cell, hcell, hc⟩
    · decide
    · obtain ⟨w, -, rfl⟩ := List.mem_map.1 hcell
      obtain rfl := List.eq_of_mem_replicate hc
      decide
  · rw [line, String.toList_ofList] at hmem
    rcases mem_intercalate_cells hmem with rfl | rfl | rfl | rfl <;> decide

end Table

/-! ### Lines of the command line -/

namespace CommandLine

variable {q : Request} {e : Expr} {next : Outcome} {read : List String → Except String Request}
  {args : List String} {text : String}

/-- A line that is printed about an expression. -/
inductive Reports (e : Expr) : String → Prop where
  /-- The expression. -/
  | expression : Reports e ("expression = " ++ e.render)
  /-- Its canonical form. -/
  | canonical : Reports e ("canonical = " ++ e.canonical.render)
  /-- A line of a table. -/
  | table {t : Table} {text : String} : text ∈ t.lines false → Reports e text
  /-- The result of its reduction. -/
  | reduced {limits : Limits} {out : Expr} : e.reduce limits = .ok out →
      Reports e ("reduced = " ++ out.render)

theorem mem_lines_showTable (h : text ∈ (showTable q e next).lines) :
    text ∈ next.lines ∨ ∃ t : Table, text ∈ t.lines false := by
  unfold showTable at h
  split at h
  · split at h
    · simp [Outcome.failure] at h
    · next t _ =>
      rcases List.mem_append.1 h with h | h
      · exact .inr ⟨t, h⟩
      · exact .inl h
  · exact .inl h

theorem reports_of_mem_showReduced (h : text ∈ (showReduced q e).lines) : Reports e text := by
  unfold showReduced at h
  split at h
  · split at h
    · simp [Outcome.failure] at h
    · split at h
      · simp [Outcome.failure] at h
      · simp [Outcome.failure] at h
      · next limits _ _ out hout =>
        rcases List.mem_cons.1 h with rfl | h
        · exact .reduced hout
        · rcases mem_lines_showTable h with h | ⟨t, ht⟩
          · simp [Outcome.success] at h
          · exact .table ht
  · simp [Outcome.success] at h

theorem reports_of_mem_answer (h : text ∈ (answer q e).lines) : Reports e text := by
  rcases List.mem_cons.1 h with rfl | h
  · exact .expression
  rcases mem_lines_showTable h with h | ⟨t, ht⟩
  · rcases List.mem_append.1 h with h | h
    · split at h
      · obtain rfl := List.mem_singleton.1 h
        exact .canonical
      · simp at h
    · exact reports_of_mem_showReduced h
  · exact .table ht

/-- Every printed line is about the expression that the given text is read as. -/
theorem exists_reports_of_mem_runWith (h : text ∈ (runWith read args).lines) :
    ∃ q e, read args = .ok q ∧ parse q.text = .ok e ∧ Reports e text := by
  unfold runWith at h
  split at h
  · simp [Outcome.failure] at h
  · next q hq =>
    split at h
    · simp [Outcome.failure] at h
    · next e he => exact ⟨q, e, hq, he, reports_of_mem_answer h⟩

/-- Only the line of the result starts as it does. -/
theorem Reports.exists_reduce {s : String} (h : Reports e ("reduced = " ++ s)) :
    ∃ limits out, e.reduce limits = .ok out ∧ s = out.render := by
  have hr : ("reduced = " ++ s).toList.head? = some 'r' := by simp
  generalize hl : "reduced = " ++ s = line at h hr
  cases h with
  | expression => simp at hr
  | canonical => simp at hr
  | table ht => exact absurd (by decide) (Table.not_isAlpha_of_mem_lines ht hr)
  | @reduced limits out hout => exact ⟨limits, out, hout, by simpa using hl⟩

end CommandLine

/-- The text of the result of a reduction is read with the term at which the reduction ended, with the
result as its canonical form and the meaning of the reduced expression, if the names of this are well
formed. All names that are read are; so what the command line prints behind `reduced = ` is read, and
means what the given text means, whatever the reader of the arguments. -/
theorem reduced_text_denotes :
    (∀ (e : Expr) (limits : Limits) (out : Expr), (∀ x ∈ e.names, isName x) →
      (Reducer.ofExpr e limits).reduce.2 = .ok out →
        ∃ e', parse out.render = .ok e' ∧ e'.canonical = out ∧
          Term.ofExpr e' = (Reducer.ofExpr e limits).reduce.1.state ∧
          e.SameMeaning e'.names fun v => e'.evaluate v) ∧
    (∀ (text : String) (e : Expr), parse text = .ok e → ∀ x ∈ e.names, isName x) ∧
    ∀ (read : List String → Except String CommandLine.Request) (args : List String) (s : String),
      "reduced = " ++ s ∈ (CommandLine.runWith read args).lines →
        ∃ q e e', read args = .ok q ∧ parse q.text = .ok e ∧ parse s = .ok e' ∧
          e.SameMeaning e'.names fun v => e'.evaluate v := by
  refine ⟨fun e limits out hn h => Reducer.exists_parse_reduced hn h, fun text e => isName_of_parse, ?_⟩
  intro read args s h
  obtain ⟨q, e, hq, he, hs⟩ := CommandLine.exists_reports_of_mem_runWith h
  obtain ⟨limits, out, hout, rfl⟩ := hs.exists_reduce
  obtain ⟨e', he', -, -, hmeaning⟩ := Reducer.exists_parse_reduced (isName_of_parse he) hout
  exact ⟨q, e, e', hq, he, he', hmeaning⟩

/-- `!(a*b)*c` is reduced to `c * (¬a + ¬b)`, which means the same, also as the text that is printed. -/
theorem reduced_text_denotes_nand :
    let e := Expr.bin .and (.not (.paren (.bin .and (.var "a") (.var "b")))) (.var "c")
    let out := Expr.bin .and (.var "c") (.bin .or (.not (.var "a")) (.not (.var "b")))
    let r := (Reducer.ofExpr e Limits.standard).reduce
    (∀ x ∈ e.names, isName x) ∧ r.2 = .ok out ∧ out.render = "c * (¬a + ¬b)" ∧
      (∃ e', parse out.render = .ok e' ∧ e'.canonical = out ∧ Term.ofExpr e' = r.1.state ∧
        e.SameMeaning e'.names fun v => e'.evaluate v) ∧
      "reduced = " ++ out.render ∈ (CommandLine.run ["--reduce", "!(a*b)*c"]).lines ∧
      ∃ q e e', CommandLine.readArguments ["--reduce", "!(a*b)*c"] = .ok q ∧ parse q.text = .ok e ∧
        parse out.render = .ok e' ∧ e.SameMeaning e'.names fun v => e'.evaluate v := by
  intro e out r
  obtain ⟨hreduced, -, hprinted⟩ := reduced_text_denotes
  have hn : ∀ x ∈ e.names, isName x := by decide
  have hr : e.reduce Limits.standard = .ok out := by decide +kernel
  have hline : "reduced = " ++ out.render ∈ (CommandLine.run ["--reduce", "!(a*b)*c"]).lines := by
    have hread : CommandLine.readArguments ["--reduce", "!(a*b)*c"] =
        .ok ⟨"!(a*b)*c", false, false, true, 2000, 20000⟩ := rfl
    have hparse : parse "!(a*b)*c" = .ok e := by
      simp [e, parse, tokenize, lexemes, isBlank, Token.ofSymbol?, readAll, readChain, readNegation,
        readAtom, Except.map]
    have hlimits : Limits.ofNumbers 2000 20000 = .ok Limits.standard := rfl
    simp [CommandLine.run, CommandLine.runWith, hread, hparse, CommandLine.answer, CommandLine.showTable,
      CommandLine.showReduced, hlimits, hr, CommandLine.Outcome.after, CommandLine.Outcome.success]
  exact ⟨hn, hr, by decide, hreduced e Limits.standard out hn hr, hline,
    hprinted CommandLine.readArguments _ _ hline⟩

end BoolLaws
