import ScriptedAgent.Kind
import ScriptedAgent.Layout
import ScriptedAgent.NameMap
import ScriptedAgent.Number
import ScriptedAgent.Oid

/-!
# Declared variables

A table of the variables of a script and of the aliases its declarations give to numbers. No name
is declared twice and no identifier's text is bound to two variables.
-/

namespace ScriptedAgent

structure VarType where
  kind : Kind
  /-- The text of the identifier the variable is exported under. -/
  oid : Option String
  layout : Option Layout
  access : Access
deriving DecidableEq

namespace VarType

def ofKind (k : Kind) : VarType := ⟨k, none, none, .readonly⟩

def text (t : VarType) : String :=
  match t.oid with
  | none => t.kind.keyword
  | some o => t.kind.keyword ++ " oid: " ++ o

/-- The size of a block of this type. -/
def blockSize (t : VarType) : Nat := (t.layout.map Layout.size).getD 0

end VarType

inductive TableError where
  | declaredTwice (name : String)
  | oidTaken (oid holder : String)
  | aliasTaken (name : String) (value : Number)
deriving DecidableEq

def TableError.message : TableError → String
  | declaredTwice n => "variable `" ++ n ++ "` declared twice"
  | oidTaken o h => "OID " ++ o ++ " already bound to `" ++ h ++ "`"
  | aliasTaken a n => "alias '" ++ a ++ "' already bound to " ++ Number.text n

/-- The variables declared under this identifier text, by name. -/
def holder? (vars : NameMap VarType) (oid : String) : Option String :=
  (vars.entries.find? (·.2.oid == some oid)).map (·.1)

structure TypeTable where
  vars : NameMap VarType
  aliases : NameMap Number
  oids_unique : ∀ n m t u o, vars.get? n = some t → vars.get? m = some u →
    t.oid = some o → u.oid = some o → n = m
deriving DecidableEq

namespace TypeTable

def empty : TypeTable := ⟨.empty, .empty, by simp⟩

def get? (T : TypeTable) (name : String) : Option VarType := T.vars.get? name

def kindOf? (T : TypeTable) (name : String) : Option Kind := (T.get? name).map (·.kind)

def alias? (T : TypeTable) (name : String) : Option Number := T.aliases.get? name

/-- The variable exported under `oid`. -/
def nameForOid? (T : TypeTable) (oid : String) : Option String := holder? T.vars oid

def field? (T : TypeTable) (name field : String) : Option Field :=
  ((T.get? name).bind (·.layout)).bind (·.field? field)

theorem holder?_ne_none {vars : NameMap VarType} {n o : String} {t : VarType}
    (h : vars.get? n = some t) (ho : t.oid = some o) : holder? vars o ≠ none := by
  have hm : (n, t) ∈ vars.entries := NameMap.mem_of_get? h
  intro hn
  simp only [holder?, Option.map_eq_none_iff, List.find?_eq_none] at hn
  exact hn _ hm (by simp [ho])

/-- The fault in exporting another variable under `oid`. -/
def conflict? (T : TypeTable) (oid : Option String) : Option TableError :=
  oid.bind fun o => (T.nameForOid? o).map (.oidTaken o)

theorem holder?_of_conflict? {T : TypeTable} {oid : Option String} (h : T.conflict? oid = none)
    (o : String) (ho : oid = some o) : holder? T.vars o = none := by
  subst ho
  simpa [conflict?, nameForOid?] using h

def add (T : TypeTable) (name : String) (t : VarType)
    (free : ∀ o, t.oid = some o → holder? T.vars o = none) : TypeTable where
  vars := T.vars.insert name t
  aliases := T.aliases
  oids_unique := by
    intro n m u w o hn hm hu hw
    rw [NameMap.get?_insert] at hn hm
    split at hn <;> split at hm
    · simp_all
    · simp only [Option.some.injEq] at hn
      exact absurd (free o (hn ▸ hu)) (holder?_ne_none hm hw)
    · simp only [Option.some.injEq] at hm
      exact absurd (free o (hm ▸ hw)) (holder?_ne_none hn hu)
    · exact T.oids_unique n m u w o hn hm hu hw

/-- Declares a variable. A name already declared is the fault looked for first. -/
def declare (T : TypeTable) (name : String) (t : VarType) : Except TableError TypeTable :=
  if T.vars.contains name then .error (.declaredTwice name)
  else match h : T.conflict? t.oid with
    | some e => .error e
    | none => .ok (T.add name t (holder?_of_conflict? h))

/-- Names a number. An alias may be bound again, to the same number. -/
def bindAlias (T : TypeTable) (name : String) (n : Number) : Except TableError TypeTable :=
  match T.alias? name with
  | some old =>
    if old = n then .ok T else .error (.aliasTaken name old)
  | none => .ok { T with aliases := T.aliases.insert name n }

end TypeTable

end ScriptedAgent
