/-
Programs that are continued.

A program can be written further.  What was assembled before stays as it is: the new words come behind
the old ones, and so do the new labels and relocation sites.

* `Assembly.Continues` — an assembly that starts with all of another one;
* `Program.continues_closedForm` — the assembly of lines starts with that of the lines above;
* `Program.assembled_stays_assembled` — the same for a text and what is written below it.

Design notes: what is written below may use the labels above, and need not have an assembly of its own.
It may not define one of them again, so every name that was found is found at the same address.
-/
import MipsAssembler.Proofs.SeparateAssembly

namespace MipsAssembler

/-- Whether `whole` starts with the words, labels and relocation sites of `part`, each in order. -/
structure Assembly.Continues (whole part : Assembly) : Prop where
  words : part.words.toList <+: whole.words.toList
  labels : part.labels.symbols.toList <+: whole.labels.symbols.toList
  relocations : part.relocations.symbols.toList <+: whole.relocations.symbols.toList

namespace Program

/-- Lines below others do not change what these are assembled to. -/
theorem continues_closedForm {base : Nat} {lines : List Line} (h : Admissible base lines)
    (lines' : List Line) :
    (closedForm base (lines ++ lines')).Continues (closedForm base lines) := by
  obtain ⟨-, hwords, hrelocations⟩ := closedForm_append h lines'
  refine ⟨?_, ?_, ?_⟩
  · rw [hwords, Array.toList_append]
    exact List.prefix_append _ _
  · show (Layout.closedForm base lines).labels.symbols.toList <+:
      (Layout.closedForm base (lines ++ lines')).labels.symbols.toList
    rw [Layout.labels_closedForm_append, SymbolTable.toList_symbols_append]
    exact List.prefix_append _ _
  · rw [hrelocations, SymbolTable.toList_symbols_append]
    exact List.prefix_append _ _

/-- **What is assembled stays assembled.**  If a text has an assembly and still has one when more is
written below it, then the words, labels and relocation sites of the longer text start with those of
the shorter one. -/
theorem assembled_stays_assembled (a b : String) (options options' : Options)
    (part whole : Assembly) (hbase : options'.base = options.base)
    (hpart : (assemble a options).run.value = .ok part)
    (hwhole : (assemble (a ++ "\n" ++ b) options').run.value = .ok whole) :
    whole.Continues part := by
  obtain ⟨lines, hlines, hadmissible, rfl⟩ := assemble_eq_ok_iff_admissible.mp hpart
  obtain ⟨all, hall, -, rfl⟩ := assemble_eq_ok_iff_admissible.mp hwhole
  obtain ⟨first, second, hfirst, -, rfl⟩ := Source.parse_append_eq_ok_iff.mp hall
  obtain rfl : first = lines := Except.ok.inj (hfirst.symm.trans hlines)
  rw [hbase]
  exact continues_closedForm hadmissible _

/-- The text below branches back to a label above it, and cannot be assembled alone. -/
theorem assembled_stays_assembled_above_branch :
    let a := "j x\nx: bne $0, $1, x"
    let b := "beq $0, $1, x"
    (assemble b {}).run.value = .error ⟨.encoding, [⟨0, 1, .unresolvedLabel "x"⟩]⟩ ∧
    ∃ part whole,
      (assemble a {}).run.value = .ok part ∧
      (assemble (a ++ "\n" ++ b) { keepGoing := true }).run.value = .ok whole ∧
      whole.words = #[0x08000000#32, 0x1401FFFF#32, 0x1001FFFE#32] ∧ whole.Continues part := by
  intro a b
  have ha : Source.parse a = .ok [⟨1, none, some ⟨"j", ["x"]⟩⟩,
      ⟨2, some "x", some ⟨"bne", ["$0", "$1", "x"]⟩⟩] := by
    cbv
  have hb : Source.parse b = .ok [⟨1, none, some ⟨"beq", ["$0", "$1", "x"]⟩⟩] := by
    cbv
  have hpart : (assemble a {}).run.value =
      .ok ⟨#[0x08000000#32, 0x1401FFFF#32], ⟨.distinct, #[⟨"x", 4⟩]⟩, ⟨.repeating, #[⟨"x", 0⟩]⟩⟩ :=
    assemble_eq_ok_iff_assembleLines.mpr ⟨_, ha, by cbv⟩
  have hwhole : (assemble (a ++ "\n" ++ b) { keepGoing := true }).run.value =
      .ok ⟨#[0x08000000#32, 0x1401FFFF#32, 0x1001FFFE#32], ⟨.distinct, #[⟨"x", 4⟩]⟩,
        ⟨.repeating, #[⟨"x", 0⟩]⟩⟩ :=
    assemble_eq_ok_iff_assembleLines.mpr
      ⟨_, Source.parse_append_eq_ok_iff.mpr ⟨_, _, ha, hb, rfl⟩, by cbv⟩
  refine ⟨?_, _, _, hpart, hwhole, rfl,
    assembled_stays_assembled a b {} { keepGoing := true } _ _ rfl hpart hwhole⟩
  exact assemble_eq_error_iff.mpr
    (.inr ⟨_, _, layOut_eq_ok_iff.mpr ⟨_, hb, rfl⟩, rfl, rfl⟩)

end Program

end MipsAssembler
