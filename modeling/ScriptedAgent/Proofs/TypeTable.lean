import ScriptedAgent.TypeTable

/-!
# Look-ups in a table of variables

The names in a map are distinct, so an entry is what its name looks up, and an identifier's text
leads to the one variable declared with it (`nameForOid?_eq_some_iff`).
-/

namespace ScriptedAgent

theorem NameMap.get?_of_mem {α : Type} {m : NameMap α} {k : String} {v : α}
    (h : (k, v) ∈ m.entries) : m.get? k = some v := by
  unfold get?
  obtain ⟨es, hes⟩ := m
  induction es with
  | nil => simp at h
  | cons e es ih =>
    obtain ⟨hlt, hes⟩ := List.pairwise_cons.1 hes
    rw [lookup_cons]
    rcases List.mem_cons.1 h with rfl | h
    · exact if_pos rfl
    · rw [if_neg fun hk => String.lt_irrefl _ (hk ▸ hlt _ h)]
      exact ih hes h

namespace TypeTable

variable {T : TypeTable} {name oid : String}

theorem nameForOid?_eq_some_iff :
    T.nameForOid? oid = some name ↔ ∃ t, T.get? name = some t ∧ t.oid = some oid := by
  constructor
  · intro h
    obtain ⟨⟨n, t⟩, he, rfl⟩ := Option.map_eq_some_iff.1 h
    have ht := List.find?_some he
    exact ⟨t, NameMap.get?_of_mem (List.mem_of_find?_eq_some he), by simpa using ht⟩
  · rintro ⟨t, ht, ho⟩
    obtain ⟨n, hn⟩ := Option.ne_none_iff_exists'.1 (holder?_ne_none ht ho)
    obtain ⟨⟨m, u⟩, he, rfl⟩ := Option.map_eq_some_iff.1 hn
    have hu := List.find?_some he
    have hm := NameMap.get?_of_mem (List.mem_of_find?_eq_some he)
    have hname := T.oids_unique name m t u oid ht hm ho (by simpa using hu)
    rw [nameForOid?, hn, hname]

end TypeTable

end ScriptedAgent
