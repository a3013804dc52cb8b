/-
# What scripts compile to

A script whose first character can start neither a comment nor a statement is
rejected, whatever follows it (`compile_eq_error_of_head`).

A script that raises an error does so on a line that has been trimmed, and a
line that raises an error holds a blank before its message.  Were the message
empty, the line would end in that blank, so no script fails with an empty
message (`failure_of_compile`).
-/
import SealedModules.Proofs.Text
import SealedModules.Script.Statement

namespace SealedModules

/-- The message of a trimmed line is not empty, since the blank before it
would then stand at the end of the line. -/
theorem Statement.message_ne_nil {line : List Char} {message : String}
    (h : Statement.read? (Text.trim line) = some (.raising message)) : message ≠ "" := by
  intro hempty
  unfold Statement.read? at h
  split at h
  · obtain ⟨value, -, hvalue⟩ := Option.map_eq_some_iff.mp h
    cases hvalue
  · split at h
    · rename_i rest hrest
      obtain rfl := Statement.raising.inj (Option.some.inj h)
      have hblank := Text.isBlank_of_trim_eq_nil (String.ofList_eq_empty_iff.mp hempty)
      have hword : "error ".toList = "error".toList ++ [' '] := by decide
      have hline : Text.trim line = "error".toList ++ ' ' :: rest := by
        rw [Text.dropStart?_eq_some hrest, hword, List.append_assoc]
        rfl
      have hne : Text.trim line ≠ [] := by
        rw [hline]
        exact nofun
      have hlast := Text.isBlank_getLast_trim hne
      have hmem : (Text.trim line).getLast hne ∈ ' ' :: rest := by
        simp only [hline, List.getLast_append_right (List.cons_ne_nil ' ' rest)]
        exact List.getLast_mem _
      rcases List.mem_cons.mp hmem with hspace | hrest
      · rw [hspace] at hlast
        cases hlast
      · rw [hblank _ hrest] at hlast
        cases hlast
    · cases h

namespace Script

theorem mem_significantLines {cs : List Char} {line : List Char × Nat}
    (h : line ∈ significantLines cs) : ∃ raw, line.1 = Text.trim raw := by
  have hmem := (List.mem_filter.mp h).1
  have htrimmed : line.1 ∈ (Text.split '\n' cs).map Text.trim := by
    exact List.fst_mem_of_mem_zipIdx hmem
  obtain ⟨raw, -, hraw⟩ := List.mem_map.mp htrimmed
  exact ⟨raw, hraw.symm⟩

theorem statement?_eq_ok {cs : List Char} {statement : Statement}
    (h : statement? cs = .ok (some statement)) :
    ∃ raw, Statement.read? (Text.trim raw) = some statement := by
  unfold statement? at h
  split at h
  · cases h
  · rename_i first more hlines
    have hfirst : first ∈ significantLines cs := hlines ▸ List.mem_cons_self
    obtain ⟨raw, hraw⟩ := mem_significantLines hfirst
    refine ⟨raw, ?_⟩
    rw [← hraw]
    split at h
    · cases h
    · cases h
    · rename_i found hfound
      obtain rfl := Option.some.inj (Except.ok.inj h)
      exact hfound

theorem failure_of_compile {bytes : Bytes} {chunk : String} {m : CompiledModule}
    (h : compile bytes chunk = .ok m) : m.failure ≠ some "" := by
  unfold compile at h
  split at h
  · cases h
  · obtain rfl := Except.ok.inj h
    exact nofun
  · obtain rfl := Except.ok.inj h
    exact nofun
  · rename_i message hstatement
    obtain rfl := Except.ok.inj h
    obtain ⟨raw, hread⟩ := statement?_eq_ok hstatement
    intro hempty
    exact Statement.message_ne_nil hread (Option.some.inj hempty)

/-! ## Scripts that are rejected at once -/

theorem read?_eq_none_of_head {c : Char} (h : c ≠ 'r' ∧ c ≠ 'e') (cs : List Char) :
    Statement.read? (c :: cs) = none := by
  have hreturn : Text.dropStart? "return ".toList (c :: cs) = none := if_neg h.1.symm
  have herror : Text.dropStart? "error ".toList (c :: cs) = none := if_neg h.2.symm
  rw [Statement.read?, hreturn, herror]

/-- The first line of a text that starts with neither a blank nor a comment
is significant. -/
theorem significantLines_of_head {c : Char} (hblank : Text.isBlank c = false) (hc : c ≠ '-')
    (cs : List Char) :
    ∃ line lines, significantLines (c :: cs) = (c :: line, 1) :: lines := by
  have hbreak : c ≠ '\n' := by
    intro heq
    rw [heq] at hblank
    cases hblank
  obtain ⟨piece, pieces, hsplit⟩ := Text.exists_split_cons hbreak cs
  obtain ⟨line, htrim⟩ := Text.exists_trim_cons hblank piece
  have hcomment : Text.dropStart? "--".toList (c :: line) = none := if_neg hc.symm
  have hsignificant : isSignificant (c :: line) = true := by
    rw [isSignificant, hcomment]
    rfl
  refine ⟨line, ((pieces.map Text.trim).zipIdx 2).filter fun line => isSignificant line.1, ?_⟩
  rw [significantLines, hsplit, List.map_cons, htrim, List.zipIdx_cons]
  exact List.filter_cons_of_pos hsignificant

theorem compile_eq_error_of_head {bytes : Bytes} {c : Char} {cs : List Char}
    (hbytes : Utf8.decodeChars bytes = c :: cs) (hblank : Text.isBlank c = false)
    (hc : c ≠ '-' ∧ c ≠ 'r' ∧ c ≠ 'e') (chunk : String) :
    ∃ message, compile bytes chunk = .error message := by
  obtain ⟨line, lines, hlines⟩ := significantLines_of_head hblank hc.1 cs
  have hstatement : statement? (c :: cs) = .error (c :: line, 1) := by
    simp only [statement?, hlines, read?_eq_none_of_head hc.2]
  exact ⟨complaint chunk (c :: line, 1), by simp only [compile, hbytes, hstatement]⟩

end Script

end SealedModules
