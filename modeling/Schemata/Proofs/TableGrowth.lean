import Schemata.Session
import Schemata.Proofs.CompileRules

/-! Tables only grow at their end. A name is put into the table after its whole body was compiled,
and what is compiled in between puts in other names only: the names on the chain are never among
those that a nested compilation adds. -/

namespace Schemata

/-- The table gets new names at its end, none of them on the chain, and none unless types are hoisted. -/
def Setting.Appends (setting : Setting) (chain : List Name) (before after : Progress) : Prop :=
  ∃ added, after.table = before.table ++ added ∧ (Record.names added).Nodup ∧
    (∀ name ∈ Record.names added, name ∉ Record.names before.table ∧ Name.text name ∉ chain) ∧
    (setting.hoisting = false → added = [])

namespace Setting.Appends

variable {setting : Setting} {chain : List Name} {before after : Progress}

protected theorem refl (progress : Progress) : setting.Appends chain progress progress :=
  ⟨[], by simp, .nil, nofun, fun _ => rfl⟩

protected theorem trans {middle : Progress} (first : setting.Appends chain before middle)
    (second : setting.Appends chain middle after) : setting.Appends chain before after := by
  obtain ⟨early, grown, earlyUnique, earlyNew, earlyNone⟩ := first
  obtain ⟨late, further, lateUnique, lateNew, lateNone⟩ := second
  rw [grown, List.append_assoc] at further
  have apart : ∀ name ∈ Record.names late, name ∉ Record.names before.table ∧ name ∉ Record.names early := by
    intro name member
    have absent := (lateNew name member).1
    rw [grown, Record.names_append, List.mem_append, not_or] at absent
    exact absent
  refine ⟨early ++ late, further, ?_, ?_, ?_⟩
  · rw [Record.names_append]
    exact earlyUnique.append lateUnique fun name one other => (apart name other).2 one
  · intro name member
    rw [Record.names_append, List.mem_append] at member
    rcases member with member | member
    · exact earlyNew name member
    · exact ⟨(apart name member).1, (lateNew name member).2⟩
  · intro inline
    rw [earlyNone inline, lateNone inline]
    rfl

/-- A name on the chain is not put in. -/
theorem missing (grown : setting.Appends chain before after) {name : String} (absent : name ∉ Record.names before.table)
    (inside : .text name ∈ chain) : name ∉ Record.names after.table := by
  obtain ⟨added, same, -, new, -⟩ := grown
  rw [same, Record.names_append, List.mem_append, not_or]
  exact ⟨absent, fun member => (new name member).2 inside⟩

/-- A name that is not on the outer chain may be put in when its body is done. -/
theorem hoist {entry : Entry} {name : String} (named : entry.name = .text name) (body : Schema)
    (hoisting : setting.hoisting = true) (absent : name ∉ Record.names before.table)
    (fresh : entry.name ∉ chain) (inner : setting.Appends (chain ++ [entry.name]) before after) :
    setting.Appends chain before { after with table := Record.set after.table name body } := by
  have missing : name ∉ Record.names after.table := inner.missing absent (by simp [named])
  obtain ⟨added, grown, unique, new, -⟩ := inner
  have apart : name ∉ Record.names added := by
    rw [grown, Record.names_append, List.mem_append, not_or] at missing
    exact missing.2
  refine ⟨added ++ [(name, body)], ?_, ?_, ?_, ?_⟩
  · rw [Record.set_of_notMem missing, grown, List.append_assoc]
  · rw [Record.names_append]
    exact unique.append (List.nodup_singleton _) fun other one same => apart (by simp_all [Record.names])
  · intro other member
    rw [Record.names_append, List.mem_append] at member
    rcases member with member | member
    · obtain ⟨outside, offChain⟩ := new other member
      exact ⟨outside, fun inside => offChain (List.mem_append_left _ inside)⟩
    · cases List.mem_singleton.mp member
      exact ⟨absent, named ▸ fresh⟩
  · intro inline
    rw [hoisting] at inline
    cases inline

end Setting.Appends

def Setting.growth (setting : Setting) : Discipline setting where
  rules chain :=
    { invariant := fun _ => True, growth := setting.Appends chain
      refl := .refl, trans := .trans }
  admits _ _ := True
  enters _ _ _ := True
  shows _ _ _ _ := True
  stands _ _ _ _ _ := True
  stable _ _ _ _ _ _ _ := trivial
  silent _ _ := ⟨trivial, .refl _⟩
  recalled _ _ _ := trivial
  remember _ _ _ := ⟨trivial, .refl _⟩
  element _ := trivial
  array _ _ := trivial
  primitive _ _ := trivial
  scalar _ _ _ := trivial
  named _ _ _ := trivial
  entered _ _ := trivial
  mentioned _ _ _ _ _ := trivial
  asked _ _ := trivial
  enter _ := trivial
  inlined inline _ _ _ _ _ grown _ _ := by
    obtain ⟨added, grown, -, -, none⟩ := grown
    exact ⟨trivial, ⟨[], by rw [grown, none inline], .nil, nofun, fun _ => rfl⟩, trivial⟩
  referred _ _ _ _ _ _ := trivial
  hoisted hoisting _ _ named absent fresh _ _ grown _ :=
    ⟨trivial, grown.hoist named _ hoisting absent fresh⟩

/-- The names that may be referred to while some types are written out. -/
def Setting.MayRefer (setting : Setting) (chain : List Name) (progress : Progress) (name : String) : Prop :=
  setting.hoisting = true ∧ (name ∈ Record.names progress.table ∨ .text name ∈ chain)

namespace Setting.MayRefer

variable {setting : Setting} {chain : List Name} {entry : Entry} {before after : Progress}

theorem grow (grown : ∀ name ∈ Record.names before.table, name ∈ Record.names after.table) (name : String)
    (refers : setting.MayRefer chain before name) : setting.MayRefer chain after name :=
  ⟨refers.1, refers.2.imp_left (grown name)⟩

theorem enter (name : String) (refers : setting.MayRefer chain before name) :
    setting.MayRefer (chain ++ [entry.name]) before name :=
  ⟨refers.1, refers.2.imp_right (List.mem_append_left _)⟩

/-- What may be referred to inside a type may be referred to after it, once the type is stored. -/
theorem leave {name : String} {body : Schema} (named : entry.name = .text name) (other : String)
    (refers : setting.MayRefer (chain ++ [entry.name]) before other) :
    setting.MayRefer chain { before with table := Record.set before.table name body } other := by
  obtain ⟨hoisting, listed | inside⟩ := refers
  · exact ⟨hoisting, .inl (Record.mem_names_set listed name body)⟩
  · rcases List.mem_append.mp inside with outer | last
    · exact ⟨hoisting, .inr outer⟩
    · cases (List.mem_singleton.mp last).trans named
      exact ⟨hoisting, .inl (Record.mem_names_set_self ..)⟩

theorem leave_inline (inline : setting.hoisting = false) (other : String)
    (refers : setting.MayRefer (chain ++ [entry.name]) before other) : setting.MayRefer chain before other := by
  rw [MayRefer, inline] at refers
  cases refers.1

theorem settled (name : String) (refers : setting.MayRefer [] before name) :
    setting.hoisting = true ∧ name ∈ Record.names before.table :=
  ⟨refers.1, refers.2.resolve_right List.not_mem_nil⟩

end Setting.MayRefer

end Schemata
