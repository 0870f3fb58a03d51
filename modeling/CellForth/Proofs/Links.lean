import CellForth.Dictionary.Lookup
import CellForth.Proofs.Memory
import Mathlib.Data.List.Perm.Subperm

/-!
# Following links

Every record has a link to another one, and a program can write anything into it. So nothing is
assumed of memory here. `Memory.Leads` follows links, over records that can be read, and says
nothing about where they are. There is only one way to follow them
(`Memory.Leads.isPrefix_of_length_le`), so a way that comes to the link zero is not one in a circle
(`Memory.Leads.not_cyclic`), and repeats no record.

Records without repetition are no more than memory has cells. Hence a way over more records is one
in a circle; moreover, all that can ever be reached is on it (`Memory.Leads.cyclic_of_size_lt`), for
it can be reached without repetition.
-/

namespace CellForth

namespace Memory

/-- Links lead from the address `a` over the given records to the address `b`. -/
inductive Leads (memory : Memory) : Nat → List Record → Nat → Prop
  /-- An address leads to itself over no records. -/
  | nil (a : Nat) : Leads memory a [] a
  /-- A record, and what its link leads to. -/
  | cons {a b : Nat} {r : Record} {rs : List Record} (hne : a ≠ 0)
    (hrecord : memory.recordAt a = .ok r) (hrest : Leads memory r.link.toNat rs b) :
    Leads memory a (r :: rs) b

/-- Following links from the address, an address is met again. -/
def Cyclic (memory : Memory) (a : Nat) : Prop :=
  ∃ rs b us, memory.Leads a rs b ∧ us ≠ [] ∧ memory.Leads b us b

/-- A record starts where it is read, and its header is in memory. -/
theorem address_of_recordAt {memory : Memory} {a : Nat} {r : Record}
    (h : memory.recordAt a = .ok r) : r.address = a ∧ a + 1 < memory.size := by
  unfold recordAt at h
  cases hlink : memory.get a with
  | error e =>
    rw [hlink] at h
    cases h
  | ok link =>
    cases hheader : memory.get (a + 1) with
    | error e =>
      rw [hlink, hheader] at h
      cases h
    | ok header =>
      rw [hlink, hheader] at h
      cases h
      exact ⟨rfl, lt_size_of_some (get_eq_ok_iff.mp hheader)⟩

namespace Leads

variable {memory : Memory} {a b c : Nat} {r : Record} {rs us : List Record}

theorem append (h : memory.Leads a rs b) (h' : memory.Leads b us c) :
    memory.Leads a (rs ++ us) c := by
  induction h with
  | nil => exact h'
  | cons hne hrecord _ ih => exact .cons hne hrecord (ih h')

/-- A record on the way can be cut off together with what comes before it. -/
theorem of_append (h : memory.Leads a (rs ++ r :: us) b) :
    memory.Leads a rs r.address ∧ memory.Leads r.address (r :: us) b := by
  induction rs generalizing a with
  | nil =>
    cases h with
    | cons hne hrecord hrest =>
      obtain ⟨rfl, -⟩ := address_of_recordAt hrecord
      exact ⟨.nil _, .cons hne hrecord hrest⟩
  | cons x rs ih =>
    cases h with
    | cons hne hrecord hrest =>
      obtain ⟨hleft, hright⟩ := ih hrest
      exact ⟨.cons hne hrecord hleft, hright⟩

/-- There is only one way, so of two the longer one begins with the other. -/
theorem isPrefix_of_length_le (h : memory.Leads a us c) (h' : memory.Leads a rs b)
    (hle : us.length ≤ rs.length) : us <+: rs := by
  induction h generalizing rs with
  | nil => exact List.nil_prefix
  | @cons a c r us hne hrecord _ ih =>
    cases h' with
    | nil => exact absurd hle (Nat.not_succ_le_zero _)
    | @cons _ _ r' rs _ hrecord' hrest' =>
      obtain rfl := Except.ok.inj (hrecord.symm.trans hrecord')
      obtain ⟨ts, rfl⟩ := ih hrest' (Nat.le_of_succ_le_succ hle)
      exact ⟨ts, rfl⟩

/-- A way that ends with the link zero goes on from every address on it. -/
theorem rest_of_zero (h : memory.Leads a rs 0) (h' : memory.Leads a us b) :
    ∃ ts, rs = us ++ ts ∧ memory.Leads b ts 0 := by
  induction h' generalizing rs with
  | nil => exact ⟨rs, rfl, h⟩
  | cons hne hrecord _ ih =>
    cases h with
    | nil => exact absurd rfl hne
    | cons _ hrecord' hrest =>
      obtain rfl := Except.ok.inj (hrecord.symm.trans hrecord')
      obtain ⟨ts, rfl, hts⟩ := ih hrest
      exact ⟨ts, rfl, hts⟩

theorem eq_nil_of_zero (h : memory.Leads 0 rs b) : rs = [] := by
  cases h with
  | nil => rfl
  | cons hne => exact absurd rfl hne

theorem unique_of_zero (h : memory.Leads a rs 0) (h' : memory.Leads a us 0) : rs = us := by
  obtain ⟨ts, rfl, hts⟩ := h.rest_of_zero h'
  rw [hts.eq_nil_of_zero, List.append_nil]

/-- A way that ends is not one in a circle. -/
theorem not_cyclic (h : memory.Leads a rs 0) : ¬ memory.Cyclic a := by
  rintro ⟨xs, b, us, hxs, hne, hus⟩
  obtain ⟨ys, -, hys⟩ := h.rest_of_zero hxs
  -- Once around and then to the end is another way to the end.
  have hsame : us ++ ys = ys := (hus.append hys).unique_of_zero hys
  exact hne (List.append_cancel_right hsame)

theorem mem_bounds (h : memory.Leads a rs b) : ∀ r ∈ rs, r.address + 1 < memory.size := by
  induction h with
  | nil => exact fun _ hr => absurd hr List.not_mem_nil
  | cons _ hrecord _ ih =>
    obtain ⟨rfl, hlt⟩ := address_of_recordAt hrecord
    exact List.forall_mem_cons.mpr ⟨hlt, ih⟩

/-- A way without repetition is shorter than memory. -/
theorem length_le (h : memory.Leads a rs b) (hnodup : (rs.map Record.address).Nodup) :
    rs.length ≤ memory.size := by
  have hsub : rs.map Record.address ⊆ List.range memory.size := by
    intro address haddress
    obtain ⟨r, hr, rfl⟩ := List.mem_map.mp haddress
    exact List.mem_range.mpr (Nat.lt_of_succ_lt (h.mem_bounds r hr))
  have hle := (List.subperm_of_subset hnodup hsub).length_le
  rwa [List.length_map, List.length_range] at hle

/-- Every address that can be reached is reached without repetition. -/
theorem exists_nodup (h : memory.Leads a rs b) :
    ∃ us, memory.Leads a us b ∧ (us.map Record.address).Nodup := by
  induction h with
  | nil a => exact ⟨[], .nil a, List.nodup_nil⟩
  | @cons a b r rs hne hrecord _ ih =>
    obtain ⟨us, hus, hnodup⟩ := ih
    obtain ⟨rfl, -⟩ := address_of_recordAt hrecord
    by_cases hmem : r.address ∈ us.map Record.address
    · -- The way comes back to where it started, and what comes before is cut off.
      obtain ⟨r', hr', haddress⟩ := List.mem_map.mp hmem
      obtain ⟨xs, ys, rfl⟩ := List.append_of_mem hr'
      rw [← haddress]
      rw [List.map_append] at hnodup
      exact ⟨r' :: ys, hus.of_append.2, (List.nodup_append.mp hnodup).2.1⟩
    · exact ⟨r :: us, .cons hne hrecord hus, List.nodup_cons.mpr ⟨hmem, hnodup⟩⟩

/-- A way with a repetition is one in a circle. -/
theorem nodup_or_cyclic (h : memory.Leads a rs b) :
    (rs.map Record.address).Nodup ∨ memory.Cyclic a := by
  induction h with
  | nil => exact .inl List.nodup_nil
  | @cons a b r rs hne hrecord hrest ih =>
    have hone : memory.Leads a [r] r.link.toNat := .cons hne hrecord (.nil _)
    obtain hnodup | ⟨xs, c, us, hxs, hus⟩ := ih
    · obtain ⟨rfl, -⟩ := address_of_recordAt hrecord
      by_cases hmem : r.address ∈ rs.map Record.address
      · obtain ⟨r', hr', haddress⟩ := List.mem_map.mp hmem
        obtain ⟨xs, ys, rfl⟩ := List.append_of_mem hr'
        have hback := hone.append hrest.of_append.1
        rw [haddress] at hback
        exact .inr ⟨[], r.address, [r] ++ xs, .nil _, List.cons_ne_nil _ _, hback⟩
      · exact .inl (List.nodup_cons.mpr ⟨hmem, hnodup⟩)
    · exact .inr ⟨[r] ++ xs, c, us, hone.append hxs, hus⟩

/-- A way longer than memory is one in a circle, and all that can be reached is on it. -/
theorem cyclic_of_size_lt (h : memory.Leads a rs b) (hlong : memory.size < rs.length) :
    memory.Cyclic a ∧ ∀ us c, memory.Leads a us c → ∀ x ∈ us, x ∈ rs := by
  refine ⟨(h.nodup_or_cyclic).resolve_left fun hnodup => ?_, fun us c hus x hx => ?_⟩
  · exact absurd (h.length_le hnodup) (Nat.not_le.mpr hlong)
  · obtain ⟨xs, ys, rfl⟩ := List.append_of_mem hx
    obtain ⟨hto, hfrom⟩ := hus.of_append
    obtain ⟨zs, hzs, hnodup⟩ := hto.exists_nodup
    -- Without repetition, `x` is reached early enough.
    have hone : memory.Leads x.address [x] x.link.toNat := by
      cases hfrom with
      | cons hne hrecord _ => exact .cons hne hrecord (.nil _)
    have hle := hzs.length_le hnodup
    have hbegins : zs ++ [x] <+: rs := by
      refine (hzs.append hone).isPrefix_of_length_le h ?_
      rw [List.length_append, List.length_singleton]
      omega
    exact hbegins.subset (List.mem_append_right _ (List.mem_singleton_self x))

end Leads

end Memory

end CellForth
