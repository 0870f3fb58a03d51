import CellForth.Proofs.Allocation
import CellForth.Proofs.Ledger

/-!
# The cells that belong to a word

A word owns more than its record. Behind the code field of a variable or of a created word stand the
cells that the program uses as it likes, behind that of a constant stands its value, and behind that
of a definition its code. A `Plot` is an entry of the dictionary together with these cells, and with
what they are for.

`Machine.HasPlots` says that the dictionary of a machine is made of plots, one behind the other, up
to a floor above which nothing is known; the floor is the end of the dictionary, or the start of the
body of a definition that is still open. Whatever is written above the floor or into data leaves all
plots as they are (`Machine.HasPlots.of_changed`), because a cell belongs to one plot at most
(`Plot.Apart.eq_of_mem`). What a program can see of this is `Machine.Separated`.
-/

namespace CellForth

/-- What the cells behind a code field are for. -/
inductive Content where
  /-- Code, or nothing at all. -/
  | code
  /-- Data of the program. Running the word gives their address. -/
  | data
  /-- A value. Running the word gives it. -/
  | value (c : Cell)
  deriving DecidableEq

/-- A word with the cells that belong to it. -/
structure Plot where
  /-- What its record says. -/
  entry : Entry
  /-- The number of cells behind its code field. -/
  size : Nat
  /-- What they are for. -/
  content : Content
  deriving DecidableEq

namespace Plot

/-- The cell behind the code field. -/
def body (p : Plot) : Nat :=
  p.entry.codeField + 1

/-- The end of the plot. -/
def stop (p : Plot) : Nat :=
  p.body + p.size

/-- The entries of words. -/
def ledger (plots : List Plot) : Ledger :=
  plots.map Plot.entry

/-- Every plot ends where the next newer one begins, or before, and the newest below the bound. -/
def Apart (bound : Nat) : List Plot → Prop
  | [] => True
  | p :: plots => p.stop ≤ bound ∧ Apart p.entry.address plots

/-- The cell is one of the data of a program. -/
def InData (plots : List Plot) (pos : Nat) : Prop :=
  ∃ p ∈ plots, p.content = .data ∧ p.body ≤ pos ∧ pos < p.stop

/-- The cell is above the floor, or it is one of the data. -/
def Writable (floor : Nat) (plots : List Plot) (pos : Nat) : Prop :=
  floor ≤ pos ∨ InData plots pos

instance (floor : Nat) (plots : List Plot) : DecidablePred (Writable floor plots) :=
  fun _ => inferInstanceAs (Decidable (_ ∨ ∃ p ∈ plots, _))

/-- The code field and the cell behind it are as the content asks for. -/
def Suits (memory : Memory) (p : Plot) : Prop :=
  match p.content with
  | .code => True
  | .data => p.entry.code = Runtime.address.opcode
  | .value c => p.entry.code = Runtime.constant.opcode ∧ 0 < p.size ∧
      memory.cells[p.body]? = some c

/-- What is behind the code field matters only as far as the plot reaches. -/
theorem Suits.congr {memory memory' : Memory} {p : Plot} (h : p.Suits memory)
    (hcell : p.content ≠ .data → p.body < p.stop →
      memory'.cells[p.body]? = memory.cells[p.body]?) : p.Suits memory' := by
  unfold Suits at h ⊢
  split at h
  · trivial
  · exact h
  · rename_i c hcontent
    obtain ⟨hcode, hpos, hvalue⟩ := h
    have hsame := hcell (by rw [hcontent]; simp) (Nat.lt_add_of_pos_right hpos)
    exact ⟨hcode, hpos, hsame.trans hvalue⟩

theorem address_lt_body (p : Plot) : p.entry.address < p.body := by
  have hlt := p.entry.lt_codeField
  unfold body
  omega

theorem body_le_stop (p : Plot) : p.body ≤ p.stop :=
  Nat.le_add_right _ _

namespace Apart

variable {bound : Nat} {plots : List Plot} {p q : Plot}

theorem stop_le (h : Apart bound plots) (hp : p ∈ plots) : p.stop ≤ bound := by
  induction plots generalizing bound with
  | nil => cases hp
  | cons r plots ih =>
    rcases List.mem_cons.mp hp with rfl | hin
    · exact h.1
    · have holder := ih h.2 hin
      have hlt := r.address_lt_body
      have hle := r.body_le_stop
      have hbound := h.1
      omega

theorem mono (h : Apart bound plots) {bound' : Nat} (hle : bound ≤ bound') :
    Apart bound' plots := by
  cases plots with
  | nil => trivial
  | cons p plots => exact ⟨Nat.le_trans h.1 hle, h.2⟩

/-- Older plots end before newer ones begin. -/
theorem pairwise (h : Apart bound plots) : plots.Pairwise fun p q => q.stop ≤ p.entry.address := by
  induction plots generalizing bound with
  | nil => exact .nil
  | cons p plots ih => exact .cons (fun q hq => h.2.stop_le hq) (ih h.2)

/-- A cell belongs to one plot at most. -/
theorem eq_of_mem (h : Apart bound plots) (hp : p ∈ plots) (hq : q ∈ plots) {pos : Nat}
    (hfirst : p.entry.address ≤ pos ∧ pos < p.stop)
    (hsecond : q.entry.address ≤ pos ∧ pos < q.stop) :
    p = q := by
  induction plots generalizing bound with
  | nil => cases hp
  | cons r plots ih =>
    rcases List.mem_cons.mp hp with rfl | hpin <;> rcases List.mem_cons.mp hq with rfl | hqin
    · rfl
    · have hle := h.2.stop_le hqin
      omega
    · have hle := h.2.stop_le hpin
      omega
    · exact ih h.2 hpin hqin

/-- The cells of a record are no data, and neither is what stands behind one without data. -/
theorem not_writable (h : Apart bound plots) (hp : p ∈ plots) {pos : Nat}
    (hpos : p.entry.address ≤ pos ∧ pos < p.stop) (hkeep : p.content = .data → pos < p.body) :
    ¬ Writable bound plots pos := by
  rintro (hbound | ⟨q, hq, hdata, hbody, hstop⟩)
  · have hle := h.stop_le hp
    omega
  · have hlt := q.address_lt_body
    obtain rfl := h.eq_of_mem hp hq hpos ⟨by omega, hstop⟩
    have hbefore := hkeep hdata
    omega

end Apart

end Plot

/-- A ledger stands wherever the cells of its records are the same. -/
theorem Ledger.StandsIn.congr_records {es : Ledger} {memory memory' : Memory} {bound : Nat}
    (h : es.StandsIn memory bound)
    (hcells : ∀ e ∈ es, ∀ i, e.address ≤ i → i ≤ e.codeField →
      memory'.cells[i]? = memory.cells[i]?) : es.StandsIn memory' bound := by
  induction h with
  | nil => exact .nil
  | @cons bound e es hstart hlength hcode hholds _ ih =>
    rw [List.forall_mem_cons] at hcells
    have hend := e.length_cells es.newest
    refine .cons hstart hlength hcode (hholds.congr fun i hle hlt => ?_) (ih hcells.2)
    exact hcells.1 i hle (by omega)

theorem Ledger.StandsIn.length_name_le {es : Ledger} {memory : Memory} {bound : Nat}
    (h : es.StandsIn memory bound) {e : Entry} (he : e ∈ es) :
    e.name.length ≤ Record.maxNameLength := by
  induction h with
  | nil => cases he
  | cons _ hlength _ _ _ ih =>
    rcases List.mem_cons.mp he with rfl | hin
    · exact hlength
    · exact ih hin

/-- The code field of an entry can be read. -/
theorem Ledger.StandsIn.get_codeField {es : Ledger} {memory : Memory} {bound : Nat}
    (h : es.StandsIn memory bound) {e : Entry} (he : e ∈ es) :
    memory.get e.codeField = .ok e.code := by
  induction h with
  | nil => cases he
  | @cons bound e' es _ hlength _ hholds _ ih =>
    rcases List.mem_cons.mp he with rfl | hin
    · have hcode := Memory.codeField_of_holds (Entry.nameLength_record hlength es.newest) hholds
      rw [← Entry.codeField_record hlength es.newest]
      exact Memory.get_of_some hcode
    · exact ih hin

/-! ### Plots in a machine -/

namespace Machine

/-- The dictionary is made of plots, up to a floor, and the machine has the built-in actions. -/
structure HasPlots (m : Machine) (floor : Nat) (plots : List Plot) (opened : Option Nat) :
    Prop where
  /-- The records are those of the plots. -/
  book : m.HasBook ⟨Plot.ledger plots, opened⟩
  /-- The floor is in the dictionary. -/
  floor_le : floor ≤ m.regs.here.toNat
  /-- The plots are one behind the other. -/
  apart : Plot.Apart floor plots
  /-- The code fields are as the contents ask for. -/
  suits : ∀ p ∈ plots, p.Suits m.memory
  /-- Opcodes have the meaning that they had at the start. -/
  table_eq : m.table.toList = Vocabulary.actions
  /-- A word that runs while compiling has an action, and does not hand over to another word. -/
  patient : ∀ p ∈ plots, p.entry.immediate = true →
    ∃ action, Vocabulary.actions[p.entry.code.toNat]? = some action ∧ action ≠ .execute

namespace HasPlots

variable {m m' : Machine} {floor : Nat} {plots : List Plot} {opened : Option Nat} {p : Plot}

theorem mem_ledger (hp : p ∈ plots) : p.entry ∈ Plot.ledger plots :=
  List.mem_map_of_mem hp

theorem within (h : m.HasPlots floor plots opened) : m.WithinRegions :=
  h.book.within

theorem lt_of_mem (h : m.HasPlots floor plots opened) (hp : p ∈ plots) :
    p.stop ≤ m.regs.here.toNat ∧ m.regs.here.toNat < 65536 :=
  ⟨Nat.le_trans (h.apart.stop_le hp) h.floor_le, m.regs.here.toNat_lt⟩

/-- The records stand below the floor. -/
theorem stands (h : m.HasPlots floor plots opened) :
    (Plot.ledger plots).StandsIn m.memory floor := by
  have hstands := h.book.stands
  have hapart := h.apart
  cases plots with
  | nil => exact .nil
  | cons p plots =>
    cases hstands with
    | cons hstart hlength _ hholds hrest =>
      have hle : p.body ≤ floor := Nat.le_trans p.body_le_stop hapart.1
      exact .cons hstart hlength (Nat.lt_of_succ_le hle) hholds hrest

/-- Plots stay as they are if nothing but data and what is above the floor has changed. -/
theorem of_changed (h : m.HasPlots floor plots opened) (hwithin : m'.WithinRegions)
    (htable : m'.table = m.table) (hlatest : m'.regs.latest = m.regs.latest)
    (hdefining : m'.regs.defining = m.regs.defining) (hfloor : floor ≤ m'.regs.here.toNat)
    (hcells : ∀ pos, m.Changed m' pos → Plot.Writable floor plots pos) :
    m'.HasPlots floor plots opened := by
  have hsame {p : Plot} (hp : p ∈ plots) {pos : Nat} (hpos : p.entry.address ≤ pos ∧ pos < p.stop)
      (hkeep : p.content = .data → pos < p.body) :
      m'.memory.cells[pos]? = m.memory.cells[pos]? :=
    not_not.mp fun hchanged => h.apart.not_writable hp hpos hkeep (hcells pos hchanged)
  have hstands : (Plot.ledger plots).StandsIn m'.memory floor := by
    refine h.stands.congr_records fun e he i hle hcode => ?_
    obtain ⟨p, hp, rfl⟩ := List.mem_map.mp he
    have hbody : i < p.body := Nat.lt_succ_of_le hcode
    exact hsame hp ⟨hle, Nat.lt_of_lt_of_le hbody p.body_le_stop⟩ fun _ => hbody
  refine ⟨⟨hwithin, ?_, hstands.mono hfloor, ?_, h.book.opened_mem⟩, hfloor, h.apart, ?_, ?_,
    h.patient⟩
  · rw [hlatest]
    exact h.book.latest_eq
  · rw [hdefining]
    exact h.book.defining_eq
  · refine fun p hp => (h.suits p hp).congr fun hdata hstop => ?_
    exact hsame hp ⟨Nat.le_of_lt p.address_lt_body, hstop⟩ fun hcontent => absurd hcontent hdata
  · rw [htable]
    exact h.table_eq

theorem deviceFree (floor : Nat) (plots : List Plot) (opened : Option Nat) :
    DeviceFree (·.HasPlots floor plots opened) :=
  fun m input output token journal h =>
    { h with book := HasBook.deviceFree _ m input output token journal h.book }

/-- The token of the word that runs and the instruction pointer do not matter. -/
theorem withPointers (h : m.HasPlots floor plots opened) (w ip : Cell) :
    ({ m with regs := { m.regs with w := w, ip := ip } } : Machine).HasPlots floor plots opened :=
  { h with book := { h.book with within := { h.within with } } }

theorem replaceData (h : m.HasPlots floor plots opened) {n : Nat} {vs : List Cell}
    (hfits : m.dataStack.Fits n vs) : (m.replaceData n vs).HasPlots floor plots opened := by
  refine h.of_changed (h.within.replaceData hfits) rfl rfl rfl h.floor_le fun pos hchanged => ?_
  refine .inl (Nat.le_of_not_lt fun hlt => hchanged ?_)
  have hhere := h.within.here_le_dataBase
  have hfloor := h.floor_le
  exact h.within.cells_replaceData hfits (.inl (by omega))

theorem append (h : m.HasPlots floor plots opened) {cs : List Cell} (hroom : cs.length ≤ m.unused) :
    (m.append cs).HasPlots floor plots opened := by
  have hhere := h.within.toNat_here_append hroom
  have hfloor := h.floor_le
  refine h.of_changed (h.within.append hroom) rfl rfl rfl (by omega) fun pos hchanged => ?_
  refine .inl (Nat.le_of_not_lt fun hlt => hchanged ?_)
  exact Memory.cells_overlay_of_lt cs (by omega)

/-! ### What the words of plots do -/

/-- The token of a word leads to the action of its code. -/
theorem resolve_of_mem (h : m.HasPlots floor plots opened) (hp : p ∈ plots) {action : Action}
    (haction : Vocabulary.actions[p.entry.code.toNat]? = some action) :
    Exec.resolve (UInt16.ofNat p.entry.codeField) m =
      .ok action (m.withW (UInt16.ofNat p.entry.codeField)) := by
  have hle := p.body_le_stop
  have hlt := h.lt_of_mem hp
  have htoNat : (UInt16.ofNat p.entry.codeField).toNat = p.entry.codeField := by
    unfold Plot.body at hle
    exact Cell.toNat_ofNat (by omega)
  have hstart := (h.stands.mem_bounds _ (mem_ledger hp)).1
  have hcode := p.entry.lt_codeField
  have htable := h.within.table_le
  refine Exec.resolve_of_address ?_ (htoNat ▸ h.stands.get_codeField (mem_ledger hp)) ?_
  · rw [htoNat]
    omega
  · rw [← Array.getElem?_toList, h.table_eq]
    exact haction

/-- Running the word of a single step is performing the action of its code. -/
theorem execute_of_mem (h : m.HasPlots floor plots opened) (hp : p ∈ plots) {r : Runtime}
    (hcode : p.entry.code = r.opcode) :
    Exec.execute (UInt16.ofNat p.entry.codeField) m =
      (r.perform >>= fun _ => pure .done) (m.withW (UInt16.ofNat p.entry.codeField)) := by
  have hruntime : ∀ r : Runtime, Vocabulary.actions[r.opcode.toNat]? = some (.runtime r) := by
    intro r
    cases r <;> decide
  have hresolve := h.resolve_of_mem hp (hcode ▸ hruntime r)
  exact (bind_of_ok hresolve).trans (Exec.act_of_step (by simp) (by simp))

end HasPlots

/-- What a program can see of the plots of a machine: every word is found as the entries say, no two
plots share a cell, and the words for data and for values give what is theirs. -/
structure Separated (m : Machine) (plots : List Plot) : Prop where
  /-- The words are those of the entries, and names mean what they mean there. -/
  presents : m.Presents ⟨Plot.ledger plots, none⟩
  /-- Of two plots, the older one ends before the newer one begins. -/
  apart : plots.Pairwise fun p q => q.stop ≤ p.entry.address
  /-- All of them are in the dictionary. -/
  bounds : ∀ p ∈ plots, dictionaryStart ≤ p.entry.address ∧ p.stop ≤ m.regs.here.toNat
  /-- Running a word for data pushes the address of its first cell. -/
  execute_data : ∀ p ∈ plots, p.content = .data →
    Exec.execute (UInt16.ofNat p.entry.codeField) m =
      (Exec.push (UInt16.ofNat p.body) >>= fun _ => pure .done)
        (m.withW (UInt16.ofNat p.entry.codeField))
  /-- Running a word for a value pushes it. -/
  execute_value : ∀ p ∈ plots, ∀ c, p.content = .value c →
    Exec.execute (UInt16.ofNat p.entry.codeField) m =
      (Exec.push c >>= fun _ => pure .done) (m.withW (UInt16.ofNat p.entry.codeField))

variable {m m' : Machine} {floor : Nat} {plots : List Plot} {p : Plot}

theorem HasPlots.separated (h : m.HasPlots floor plots none) : m.Separated plots := by
  refine ⟨h.book.presents, h.apart.pairwise, fun p hp => ?_, fun p hp hdata => ?_,
    fun p hp c hvalue => ?_⟩
  · exact ⟨(h.stands.mem_bounds _ (HasPlots.mem_ledger hp)).1, (h.lt_of_mem hp).1⟩
  · have hcode := h.suits p hp
    rw [Plot.Suits, hdata] at hcode
    refine (h.execute_of_mem hp hcode).trans ?_
    have hnext : UInt16.ofNat p.entry.codeField + 1 = UInt16.ofNat p.body := by
      rw [Plot.body, UInt16.ofNat_add]
      rfl
    rw [← hnext]
    rfl
  · have hsuits := h.suits p hp
    rw [Plot.Suits, hvalue] at hsuits
    obtain ⟨hcode, hpos, hcell⟩ := hsuits
    have hle := p.body_le_stop
    have hlt := h.lt_of_mem hp
    -- The body ends in the dictionary, so that its address does not wrap around.
    have htoNat : (UInt16.ofNat p.entry.codeField).toNat + 1 = p.body := by
      unfold Plot.body at hle ⊢
      rw [Cell.toNat_ofNat (by omega)]
    rw [h.execute_of_mem hp hcode]
    have hfetch : Exec.fetch ((UInt16.ofNat p.entry.codeField).toNat + 1)
        (m.withW (UInt16.ofNat p.entry.codeField)) = .ok c _ :=
      Exec.fetch_of_some (htoNat ▸ hcell)
    have hperform : Runtime.constant.perform (m.withW (UInt16.ofNat p.entry.codeField)) =
        Exec.push c (m.withW (UInt16.ofNat p.entry.codeField)) := bind_of_ok hfetch
    show EStateM.bind _ _ _ = EStateM.bind _ _ _
    unfold EStateM.bind
    rw [hperform]

end Machine

/-! ### Words that store -/

/-- What a word that stores leaves in the cell, by what was there and by the operand. -/
def StorageWord.stored? : StorageWord → Option (Cell → Cell → Cell)
  | store => some fun _ x => x
  | addStore => some fun c x => c + x
  | _ => none

/-- A word that stores takes its operands off and changes one cell. -/
theorem StorageWord.step_of_stored {m : Machine} (hm : m.Ordered) {word : StorageWord}
    {f : Cell → Cell → Cell} (hword : word.stored? = some f) {address x c : Cell} {rest : List Cell}
    (hitems : m.dataStack.items = address :: x :: rest)
    (hcell : m.memory.cells[address.toNat]? = some c) :
    (Action.storage word).step m =
      .ok ()
        (({ m with memory := m.memory.overlay address.toNat [f c x] } : Machine).replaceData
          2 []) := by
  have hlength := hm.dataStack.length_items
  rw [hitems, List.length_cons, List.length_cons] at hlength
  have hrequire : Exec.onData (Stack.require 2) m = .ok () m :=
    Exec.onData_of_ok (observe_of_ok (demand_of_pos (by omega)))
  have hfirst : Exec.onData (Stack.pick 0) m = .ok address m :=
    Exec.onData_of_ok (hm.dataStack.pick_of_some (by rw [hitems]; rfl))
  have hsecond : Exec.onData (Stack.pick 1) m = .ok x m :=
    Exec.onData_of_ok (hm.dataStack.pick_of_some (by rw [hitems]; rfl))
  have hfetch : Exec.fetch address.toNat m = .ok c m := Exec.fetch_of_some hcell
  -- The operands are dropped only after the cell is written, so the write sees the old stack.
  have hput := fun v => Exec.put_of_lt (m := m) v (Memory.lt_size_of_some hcell)
  have hdrop (v : Cell) :
      Exec.onData Stack.dropTwo { m with memory := m.memory.overlay address.toNat [v] } =
        .ok ()
          (({ m with memory := m.memory.overlay address.toNat [v] } : Machine).replaceData
            2 []) := by
    have hordered : ({ m with memory := m.memory.overlay address.toNat [v] } : Machine).Ordered :=
      { hm with returnLimit_eq := hm.returnLimit_eq.trans (Memory.size_overlay ..).symm }
    refine Exec.onData_of_ok (hordered.dataStack.dropTwo_of_fits ⟨?_, Nat.zero_le _⟩)
    show 2 ≤ m.dataStack.size
    omega
  cases word with
  | store =>
    cases hword
    refine (bind_of_ok hrequire).trans ((bind_of_ok hfirst).trans ((bind_of_ok hsecond).trans ?_))
    exact (bind_of_ok (hput x)).trans (hdrop x)
  | addStore =>
    cases hword
    refine (bind_of_ok hrequire).trans ((bind_of_ok hfirst).trans ((bind_of_ok hsecond).trans ?_))
    exact (bind_of_ok hfetch).trans ((bind_of_ok (hput (c + x))).trans (hdrop (c + x)))
  | _ => cases hword

/-- Storing into data changes the one cell, and the plots stay as they are. -/
theorem Machine.HasPlots.step_of_stored {m : Machine} {floor : Nat} {plots : List Plot} {p : Plot}
    {opened : Option Nat} (h : m.HasPlots floor plots opened) (hp : p ∈ plots)
    (hdata : p.content = .data)
    {word : StorageWord} {f : Cell → Cell → Cell} (hword : word.stored? = some f) {address x : Cell}
    {rest : List Cell} (hitems : m.dataStack.items = address :: x :: rest)
    (hbody : p.body ≤ address.toNat) (hstop : address.toNat < p.stop) :
    ∃ c m', m.memory.get address.toNat = .ok c ∧ (Action.storage word).step m = .ok () m' ∧
      m'.memory.get address.toNat = .ok (f c x) ∧
      (∀ pos, pos ≠ address.toNat → m'.memory.get pos = m.memory.get pos) ∧
      m'.HasPlots floor plots opened := by
  have hlt := (h.lt_of_mem hp).1
  have hhere := h.within.here_le_dataBase
  have hsize := h.within.dataBase_le_size
  have hin : address.toNat < m.memory.size := by omega
  obtain ⟨c, hget, hcell⟩ := Memory.get_eq_ok_of_lt hin
  have hother (pos : Nat) (hne : pos ≠ address.toNat) :
      (m.memory.overlay address.toNat [f c x]).cells[pos]? = m.memory.cells[pos]? := by
    rw [Memory.cells_overlay, if_neg (by rw [List.length_singleton]; omega)]
  have hwithin : ({ m with memory := m.memory.overlay address.toNat [f c x] } : Machine).HasPlots
      floor plots opened := by
    refine h.of_changed ?_ rfl rfl rfl h.floor_le fun pos hchanged => ?_
    · exact (Bounded.withMemory (g := m.regions) ⟨h.within, rfl⟩ (Memory.size_overlay ..)).1
    · obtain rfl : pos = address.toNat := not_not.mp fun hne => hchanged (hother pos hne)
      exact .inr ⟨p, hp, hdata, hbody, hstop⟩
  refine ⟨c, _, hget, StorageWord.step_of_stored h.within.ordered hword hitems hcell, ?_,
    fun pos hne => Memory.get_congr (hother pos hne), hwithin.replaceData ⟨?_, Nat.zero_le _⟩⟩
  · show Memory.get (m.memory.overlay address.toNat [f c x]) _ = _
    refine Memory.get_of_some ?_
    rw [Memory.cells_overlay, if_pos (by rw [List.length_singleton]; omega), Nat.sub_self]
    rfl
  · have hlength := h.within.dataStack.length_items
    rw [hitems, List.length_cons, List.length_cons] at hlength
    show 2 ≤ m.dataStack.size
    omega

end CellForth
