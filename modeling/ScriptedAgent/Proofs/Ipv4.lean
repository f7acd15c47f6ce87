import ScriptedAgent.Ipv4
import ScriptedAgent.Proofs.Text

/-!
# The text of an address

The text of an address is read as the same address (`ofText?_text`).
-/

namespace ScriptedAgent.Ipv4

open Text

theorem octet?_digits (o : UInt8) : octet? (Decimal.digits o.toNat) = some o := by
  have h : ∀ n < 256, octet? (Decimal.digits n) = some (UInt8.ofNat n) := by decide +kernel
  rw [h o.toNat o.toNat_lt, UInt8.ofNat_toNat]

theorem trimmed_text (a : Ipv4) : trimmed a.text.toList = a.text.toList := by
  refine trimmed_of_forall fun c hc => ?_
  rw [text, String.toList_ofList] at hc
  rcases mem_joined hc with rfl | ⟨f, hf, hc⟩
  · rfl
  · obtain ⟨o, -, rfl⟩ := List.mem_map.1 hf
    exact isBlank_of_isDigit (Decimal.isDigit_of_mem_digits hc)

theorem fields_text (a : Ipv4) :
    fields '.' a.text.toList = a.octets.map fun o => Decimal.digits o.toNat := by
  rw [text, String.toList_ofList]
  refine fields_joined (by simp [octets]) fun f hf => ?_
  obtain ⟨o, -, rfl⟩ := List.mem_map.1 hf
  exact Decimal.notMem_digits rfl _

theorem ofText?_text (a : Ipv4) : ofText? a.text = some a := by
  rw [ofText?, trimmed_text, fields_text]
  simp only [octets, List.map_cons, List.map_nil, octet?_digits]
  rfl

end ScriptedAgent.Ipv4
