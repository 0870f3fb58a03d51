import CellForth.Proofs.Abreast
import CellForth.Proofs.Definitions
import CellForth.Proofs.Plots
import CellForth.Proofs.Regions
import CellForth.Proofs.Startup

/-!
# The regions of a machine along its history

A host can ask for anything, and a program may store over its own code, give back cells of the
dictionary that are in use, or fault in the middle of a text. All of this happens within the regions
that a machine was created with: their boundaries do not move, and what they bound does not leave
them.

To see such a history, a text is followed word by word. As long as the dictionary of a new machine
is there, its words are found, whatever has happened behind it and wherever it ends
(`Machine.Inherits`), and reading the name of a built-in word runs its action
(`Machine.Inherits.interpret_builtin`).
-/

namespace CellForth

namespace Machine

/-- The machine still has the words of the machine `m₀`, and runs those that it reads. -/
structure Inherits (m₀ m : Machine) : Prop where
  /-- Everything is in its bounds. -/
  within : m.WithinRegions
  /-- The regions are the same. -/
  regions_eq : m.regions = m₀.regions
  /-- Opcodes mean the same. -/
  table_eq : m.table = m₀.table
  /-- The newest record is the same. -/
  latest_eq : m.regs.latest = m₀.regs.latest
  /-- The dictionary is the same, as far as it reached. -/
  agree : Memory.AgreeBelow m₀.regs.here.toNat m.memory m₀.memory
  /-- Words are not compiled. -/
  mode_eq : m.regs.mode = .interpret
  /-- No threaded code is running. -/
  ip_eq : m.regs.ip = 0

namespace Inherits

variable {m₀ m m' : Machine} {config : Config} {input : Source} {output : Sink}
  {verbosity : Verbosity}

theorem dataBase_eq (h : m₀.Inherits m) : m.regs.dataBase = m₀.regs.dataBase :=
  congrArg Regions.dataBase h.regions_eq

theorem refl_of_create (hcreate : create config input output verbosity = .ok m) :
    m.Inherits m := by
  obtain ⟨layout, -, hnew⟩ := new_of_create hcreate
  refine ⟨hnew.within, rfl, rfl, rfl, .refl _ _, ?_, ?_⟩
  · rw [hnew.regs]
    rfl
  · rw [hnew.regs]
    rfl

theorem reread (h : m₀.Inherits m) (token : List UInt8) (input : Source) (w : Cell)
    (journal : Journal) :
    m₀.Inherits { m with
      token := token, input := input, regs := { m.regs with w := w }, journal := journal } :=
  { h with within := { h.within with } }

theorem replaceData (h : m₀.Inherits m) (hwithin : m₀.WithinRegions) {n : Nat} {vs : List Cell}
    (hfits : m.dataStack.Fits n vs) : m₀.Inherits (m.replaceData n vs) where
  within := h.within.replaceData hfits
  regions_eq := (regions_replaceData ..).trans h.regions_eq
  table_eq := h.table_eq
  latest_eq := h.latest_eq
  agree i hi := by
    have hbelow : i < m.regs.dataBase.toNat := by
      rw [h.dataBase_eq]
      exact Nat.lt_of_lt_of_le hi hwithin.here_le_dataBase
    exact (h.within.cells_replaceData hfits (.inl hbelow)).trans (h.agree i hi)
  mode_eq := h.mode_eq
  ip_eq := h.ip_eq

/-- Items that are there can be taken off. -/
theorem fits_nil (h : m₀.Inherits m) {top rest : List Cell}
    (hitems : m.dataStack.items = top ++ rest) : m.dataStack.Fits top.length [] := by
  have hlength := h.within.dataStack.length_items
  rw [hitems, List.length_append] at hlength
  exact ⟨by omega, Nat.zero_le _⟩

/-- There is room for an item on a stack that is not full. -/
theorem push (h : m₀.Inherits m) (hwithin : m₀.WithinRegions) {items : List Cell}
    (hitems : m.dataStack.items = items) (hroom : items.length < m.dataStack.capacity) (c : Cell) :
    m.dataStack.Fits 0 [c] ∧ m₀.Inherits (m.replaceData 0 [c]) ∧
      (m.replaceData 0 [c]).dataStack.items = c :: items := by
  have hlength := h.within.dataStack.length_items
  rw [hitems] at hlength
  have hfits : m.dataStack.Fits 0 [c] := by
    refine ⟨Nat.zero_le _, ?_⟩
    rw [List.length_singleton, Stack.room]
    omega
  refine ⟨hfits, h.replaceData hwithin hfits, ?_⟩
  rw [dataStack_replaceData, h.within.dataStack.items_replaced hfits, hitems]
  rfl

/-- Behind the dictionary of the machine that it inherits from, it may store anything. -/
theorem overlay (h : m₀.Inherits m) {pos : Nat} (hpos : m₀.regs.here.toNat ≤ pos) (cs : List Cell) :
    m₀.Inherits { m with memory := m.memory.overlay pos cs } :=
  have hsize : (m.memory.overlay pos cs).size = m.memory.size := Memory.size_overlay ..
  { h with
    within :=
      { h.within with
        returnLimit_eq := h.within.returnLimit_eq.trans hsize.symm
        size_le := hsize ▸ h.within.size_le }
    regions_eq := Eq.trans (by rw [regions, hsize]; rfl) h.regions_eq
    agree := fun i hi =>
      (Memory.cells_overlay_of_lt _ (Nat.lt_of_lt_of_le hi hpos)).trans (h.agree i hi) }

/-- Its own dictionary may end anywhere. -/
theorem setHere (h : m₀.Inherits m) {here : Cell} (hstart : dictionaryStart ≤ here.toNat)
    (hle : here.toNat ≤ m.regs.dataBase.toNat) :
    m₀.Inherits { m with regs := { m.regs with here := here } } :=
  { h with within := { h.within with start_le_here := hstart, here_le_dataBase := hle } }

theorem find_eq (h : m₀.Inherits m) (hwithin : m₀.WithinRegions) (hintact : m₀.Intact)
    (token : List UInt8) : m.find token = m₀.find token := by
  -- Look-up does not ask where the dictionary ends, so it may be taken to end where it did before.
  have hle : m₀.regs.here.toNat ≤ m.regs.dataBase.toNat := by
    rw [h.dataBase_eq]
    exact hwithin.here_le_dataBase
  have hsame := h.setHere hwithin.start_le_here hle
  exact find_congr hwithin hsame.within hintact h.latest_eq rfl h.agree token

/-- Reading the name of a built-in word runs its action. -/
theorem interpret_builtin (h : m₀.Inherits m)
    (hcreate : create config input output verbosity = .ok m₀) {word : Builtin} {op : Nat}
    (hword : (word, op) ∈ Vocabulary.numbered) (hexecute : word.action ≠ .execute)
    (hresume : word.action ≠ .resume) {ts : List (List UInt8)}
    (hreads : m.input.Reads (Text.bytes word.name :: ts)) :
    ∃ (xt : Cell) (ahead : Source), ahead.Reads ts ∧
      (∀ m', word.action.step
            { m with token := [], input := ahead, regs := { m.regs with w := xt } } = .ok () m' →
          m'.regs.ip = 0 → m'.token = [] → ∀ steps,
          m.interpret (steps + 1) = { m' with token := Text.bytes word.name }.interpret steps) ∧
      ∀ e m', word.action.step
            { m with token := [], input := ahead, regs := { m.regs with w := xt } } = .error e m' →
          m'.token = [] → ∀ steps,
          m.interpret (steps + 1) = some (.error e { m' with token := Text.bytes word.name }) := by
  obtain ⟨layout, -, hnew⟩ := new_of_create hcreate
  have hstart := atStart_of_create hcreate
  obtain ⟨r, hfind, hcell⟩ := hstart.find word op hword
  obtain ⟨haddress, hbody⟩ := hnew.intact.bounds_of_find hnew.within hfind
  obtain ⟨ahead, hrest, hrun⟩ := interpret_of_reads hreads
  have hnext := h.reread (Text.bytes word.name) ahead m.regs.w m.journal
  have hfound := (hnext.find_eq hnew.within hnew.intact _).trans hfind
  have hmode : (m.regs.isCompiling && !r.isImmediate) = false := by
    rw [Registers.isCompiling, h.mode_eq]
    rfl
  have hsize : r.body ≤ m.memory.size := by
    have hle := h.within.dataBase_le_size
    rw [h.dataBase_eq] at hle
    exact Nat.le_trans hbody (Nat.le_trans hnew.within.here_le_dataBase hle)
  have hcode : m.memory.get r.codeField = .ok (UInt16.ofNat op) :=
    Memory.get_of_some ((h.agree _ hbody).trans hcell)
  have haction : m.table[(UInt16.ofNat op).toNat]? = some word.action := by
    have hop := hstart.action word op hword
    obtain ⟨hlt, -⟩ := Array.getElem?_eq_some_iff.mp hop
    have htable := hnew.within.table_le
    rw [Cell.toNat_ofNat (by unfold dictionaryStart at htable; omega), h.table_eq]
    exact hop
  have htoken (steps : Nat) := interpretToken_native steps hnext.within hfound hmode haddress hsize
    hcode haction hexecute hresume
  have hrestore (m' : Machine) (hempty : m'.token = []) :
      m'.restoreToken (Text.bytes word.name) = { m' with token := Text.bytes word.name } := by
    rw [restoreToken, hempty]
    rfl
  refine ⟨UInt16.ofNat r.codeField, ahead, hrest, fun m' hok hip hempty steps => ?_,
    fun e m' herror hempty steps => ?_⟩
  · rw [← hrestore m' hempty, hrun, htoken, hok]
    simp only [runThread_of_eq_zero steps hip]
    rfl
  · rw [← hrestore m' hempty, hrun, htoken, herror]

end Inherits

end Machine

/-! ### Words that follow each other -/

/-- Cells of the dictionary are given back if some are left. -/
theorem StorageWord.step_allot {m : Machine} (hm : m.Ordered) {n here : Cell} {rest : List Cell}
    (hitems : m.dataStack.items = n :: rest) (hstart : dictionaryStart ≤ here.toNat)
    (hle : here.toNat ≤ m.regs.dataBase.toNat)
    (hhere : (here.toNat : Int) = m.regs.here.toNat + Cell.signed n) :
    (Action.storage .allot).step m =
      .ok () (({ m with regs := { m.regs with here := here } } : Machine).replaceData 1 []) := by
  have hlength := hm.dataStack.length_items
  rw [hitems, List.length_cons] at hlength
  have hpeek : Exec.peek m = .ok n m := Exec.onData_of_ok (hm.dataStack.peek_of_cons hitems)
  have hallot : Exec.allot (Cell.signed n) m =
      .ok () { m with regs := { m.regs with here := here } } := by
    rw [Exec.allot_eq, ← hhere, if_pos (by omega), if_pos (by omega), Int.toNat_natCast,
      UInt16.ofNat_toNat]
  have hordered : ({ m with regs := { m.regs with here := here } } : Machine).Ordered :=
    { hm with start_le_here := hstart, here_le_dataBase := hle }
  have hfits : ({ m with regs := { m.regs with here := here } } : Machine).dataStack.Fits 1 [] :=
    ⟨by show 1 ≤ m.dataStack.size; omega, Nat.zero_le _⟩
  have hdrop := Exec.onData_of_ok (hordered.dataStack.drop_of_fits hfits)
  exact (bind_of_ok hpeek).trans ((bind_of_ok hallot).trans hdrop)

/-- An item cannot be dropped from an empty stack. -/
theorem StackWord.step_drop_of_nil {m : Machine} (hm : m.Ordered)
    (hitems : m.dataStack.items = []) :
    (Action.stack .drop).step m = .error .stackUnderflow m :=
  Exec.onData_of_error (bind_of_error (hm.dataStack.pop_of_nil hitems))

namespace Machine.Inherits

variable {m₀ m : Machine} {config : Config} {input : Source} {output : Sink} {verbosity : Verbosity}
  {ts : List (List UInt8)}

/-- Reading `!` stores behind the dictionary. -/
theorem interpret_store (h : m₀.Inherits m)
    (hcreate : create config input output verbosity = .ok m₀)
    (hreads : m.input.Reads (Text.bytes "!" :: ts)) {address x : Cell} {rest : List Cell}
    (hitems : m.dataStack.items = address :: x :: rest)
    (hfree : m₀.regs.here.toNat ≤ address.toNat)
    (hbelow : address.toNat < m₀.regs.dataBase.toNat) :
    ∃ m', (∀ steps, m.interpret (steps + 1) = m'.interpret steps) ∧ m₀.Inherits m' ∧
      m'.input.Reads ts ∧ m'.dataStack.items = rest ∧ m'.regs.here = m.regs.here ∧
      m'.memory.cells[address.toNat]? = some x := by
  have hwithin := create_withinRegions hcreate
  have hsize : address.toNat < m.memory.size := by
    have hlimit := h.within.dataBase_le_size
    rw [h.dataBase_eq] at hlimit
    omega
  obtain ⟨c, -, hcell⟩ := Memory.get_eq_ok_of_lt hsize
  have hword : ((⟨"!", .storage .store, false⟩ : Builtin), 63) ∈ Vocabulary.numbered :=
    List.mem_of_getElem? (i := 50) rfl
  obtain ⟨xt, ahead, hahead, hok, -⟩ := h.interpret_builtin hcreate hword nofun nofun hreads
  have hentered := h.reread [] ahead xt m.journal
  have hstep := StorageWord.step_of_stored (f := fun _ x => x) hentered.within.ordered
    (show StorageWord.store.stored? = _ from rfl) hitems hcell
  have hwritten := hentered.overlay hfree [x]
  have hfits := h.fits_nil (show m.dataStack.items = [address, x] ++ rest from hitems)
  refine ⟨_, hok _ hstep h.ip_eq rfl,
    (hwritten.replaceData hwithin hfits).reread (Text.bytes "!") ahead xt m.journal, hahead, ?_,
    rfl, ?_⟩
  · have hsame := items_overlay_of_le (show address.toNat + [x].length ≤ m.regs.dataBase.toNat by
      rw [h.dataBase_eq]
      exact hbelow)
    refine (hwritten.within.dataStack.items_replaced hfits).trans ?_
    exact congrArg (List.drop 2) (hsame.trans hitems)
  · refine (hwritten.within.cells_replaceData hfits (.inl ?_)).trans ?_
    · show address.toNat < m.regs.dataBase.toNat
      rw [h.dataBase_eq]
      exact hbelow
    · exact Memory.cells_overlay_add (i := 0) (Nat.zero_lt_one : 0 < [x].length) hsize

/-- Reading `allot` moves the end of the dictionary. -/
theorem interpret_allot (h : m₀.Inherits m)
    (hcreate : create config input output verbosity = .ok m₀)
    (hreads : m.input.Reads (Text.bytes "allot" :: ts)) {n here : Cell} {rest : List Cell}
    (hitems : m.dataStack.items = n :: rest) (hstart : dictionaryStart ≤ here.toNat)
    (hle : here.toNat ≤ m₀.regs.dataBase.toNat)
    (hhere : (here.toNat : Int) = m.regs.here.toNat + Cell.signed n) :
    ∃ m', (∀ steps, m.interpret (steps + 1) = m'.interpret steps) ∧ m₀.Inherits m' ∧
      m'.input.Reads ts ∧ m'.dataStack.items = rest ∧ m'.regs.here = here ∧
      ∀ pos < m₀.regs.dataBase.toNat, m'.memory.cells[pos]? = m.memory.cells[pos]? := by
  have hwithin := create_withinRegions hcreate
  rw [← h.dataBase_eq] at hle
  have hword : ((⟨"allot", .storage .allot, false⟩ : Builtin), 67) ∈ Vocabulary.numbered :=
    List.mem_of_getElem? (i := 46) rfl
  obtain ⟨xt, ahead, hahead, hok, -⟩ := h.interpret_builtin hcreate hword nofun nofun hreads
  have hentered := h.reread [] ahead xt m.journal
  have hstep := StorageWord.step_allot hentered.within.ordered hitems hstart hle hhere
  have hmoved := hentered.setHere hstart hle
  have hfits := h.fits_nil (show m.dataStack.items = [n] ++ rest from hitems)
  refine ⟨_, hok _ hstep h.ip_eq rfl,
    (hmoved.replaceData hwithin hfits).reread (Text.bytes "allot") ahead xt m.journal, hahead, ?_,
    rfl, fun pos hpos => ?_⟩
  · refine (hmoved.within.dataStack.items_replaced hfits).trans ?_
    exact congrArg (List.drop 1) hitems
  · rw [← h.dataBase_eq] at hpos
    exact hmoved.within.cells_replaceData hfits (.inl hpos)

/-- Reading `drop` faults on an empty stack. -/
theorem interpret_drop_of_nil (h : m₀.Inherits m)
    (hcreate : create config input output verbosity = .ok m₀)
    (hreads : m.input.Reads (Text.bytes "drop" :: ts)) (hitems : m.dataStack.items = [])
    (steps : Nat) :
    ∃ m', m.interpret (steps + 1) = some (.error .stackUnderflow m') ∧ m'.memory = m.memory ∧
      m'.regs.here = m.regs.here := by
  have hword : ((⟨"drop", .stack .drop, false⟩ : Builtin), 12) ∈ Vocabulary.numbered :=
    List.mem_of_getElem? (i := 101) rfl
  obtain ⟨xt, ahead, hahead, -, herror⟩ := h.interpret_builtin hcreate hword nofun nofun hreads
  have hentered := h.reread [] ahead xt m.journal
  exact ⟨_, herror _ _ (StackWord.step_drop_of_nil hentered.within.ordered hitems) rfl steps, rfl,
    rfl⟩

/-- A text stores behind the dictionary, moves the end of the dictionary, and drops one item too
many. -/
theorem evaluate_store_allot_drop (h : m₀.Inherits m)
    (hcreate : create config input output verbosity = .ok m₀) (hpoison : m.poison? = none)
    {address x n here : Cell} (hitems : m.dataStack.items = [address, x, n])
    (hfree : m₀.regs.here.toNat ≤ address.toNat)
    (hbelow : address.toNat < m₀.regs.dataBase.toNat) (hstart : dictionaryStart ≤ here.toNat)
    (hle : here.toNat ≤ m₀.regs.dataBase.toNat)
    (hhere : (here.toNat : Int) = m.regs.here.toNat + Cell.signed n) :
    ∃ m', m.evaluate 3 "! allot drop" = some (.error (.fault .stackUnderflow) m') ∧
      m'.memory.cells[address.toNat]? = some x ∧ m'.regs.here = here ∧ m'.regs.fault = true := by
  have hreads : (m.setText "! allot drop").input.Reads (["!", "allot", "drop"].map Text.bytes) :=
    ⟨⟨_, rfl, by decide +kernel⟩, by decide +kernel⟩
  have h₀ : m₀.Inherits (m.setText "! allot drop") :=
    h.reread m.token (Source.ofText "! allot drop") m.regs.w _
  obtain ⟨m₁, hstore, h₁, hreads₁, hitems₁, hhere₁, hcell₁⟩ :=
    h₀.interpret_store hcreate hreads hitems hfree hbelow
  obtain ⟨m₂, hallot, h₂, hreads₂, hitems₂, hhere₂, hcells₂⟩ :=
    h₁.interpret_allot hcreate hreads₁ hitems₁ hstart hle (hhere₁ ▸ hhere)
  obtain ⟨m₃, hdrop, hmemory₃, hhere₃⟩ := h₂.interpret_drop_of_nil hcreate hreads₂ hitems₂ 0
  refine ⟨m₃.poisonWith .stackUnderflow, ?_, ?_, hhere₃.trans hhere₂, rfl⟩
  · rw [evaluate_eq_of_poison?_eq_none hpoison, hstore, hallot, hdrop, Option.map_some,
      finishRun_error]
  · show m₃.memory.cells[address.toNat]? = some x
    rw [hmemory₃, hcells₂ _ hbelow]
    exact hcell₁

end Machine.Inherits

/-! ### Histories -/

/-- A host puts an item on the data stack. -/
theorem Request.perform_push {m : Machine} (h : m.WithinRegions) {c : Cell}
    (hfits : m.dataStack.Fits 0 [c]) (steps : Nat) :
    (Request.dataStack (.push c)).perform steps m = some (.ok .done (m.replaceData 0 [c])) := by
  have hpush : StackRequest.perform (.push c) m.dataStack =
      .ok .done (m.dataStack.replaced 0 [c]) := bind_of_ok (h.dataStack.push_of_fits hfits)
  have hdata : Exec.onData (StackRequest.perform (.push c)) m = .ok .done (m.replaceData 0 [c]) :=
    Exec.onData_of_ok hpush
  show ofExec id _ m = _
  unfold ofExec
  rw [hdata]
  rfl

/-- Whatever a host asks of a machine, and whether it is answered or refused, the regions of the
machine keep their boundaries and everything stays within them. -/
theorem Transcript.withinRegions_and_regions_eq {config : Config} {input : Source} {output : Sink}
    {verbosity : Verbosity} {m m' : Machine} {es : List (Request × Reply)}
    (hcreate : Machine.create config input output verbosity = .ok m) (ht : Transcript m es m') :
    m'.WithinRegions ∧ m'.regions = m.regions := by
  have hpoison : ∀ m₀ f, Machine.Bounded m.regions m₀ →
      Machine.Bounded m.regions (m₀.poisonWith f) :=
    fun _ _ hm₀ => ⟨{ hm₀.1 with }, hm₀.2⟩
  exact (Elementary.bounded m.regions).transcript hpoison ht
    ⟨Machine.create_withinRegions hcreate, rfl⟩

/-- A new machine stores behind its dictionary, gives back the last six cells of it, and faults. It
is changed and poisoned then, and still in order. -/
theorem withinRegions_after_store_and_allot :
    ∃ m m' es, Machine.create {} Source.empty {} .off = .ok m ∧ Transcript m es m' ∧
      es = [(.dataStack (.push 65530), .ok .done), (.dataStack (.push 7), .ok .done),
        (.dataStack (.push 1000), .ok .done),
        (.evaluate "! allot drop", .error (.host (.fault .stackUnderflow)))] ∧
      m.memory.cells[1000]? = some 0 ∧ m'.memory.cells[1000]? = some 7 ∧
      m.regs.here = 777 ∧ m'.regs.here = 771 ∧ m'.regs.fault = true ∧
      m'.WithinRegions ∧ m'.regions = m.regions := by
  obtain ⟨m, hcreate, hnew, hhere, -⟩ := Machine.create_default Source.empty {} .off
  have hstart := Machine.atStart_of_create hcreate
  have hwithin := hnew.within
  have hempty : m.dataStack.items = [] := congrArg List.reverse hstart.dataItems
  have hroom {n : Nat} (hn : n < 64) : n < m.dataStack.capacity :=
    (show m.dataStack.capacity = 64 from hstart.dataCapacity) ▸ hn
  have hbase : m.regs.dataBase.toNat = 32576 := by
    rw [hnew.regs]
    rfl
  have hend : m.regs.here.toNat = 777 := congrArg UInt16.toNat hhere
  have hzero : m.memory.cells[1000]? = some 0 :=
    hstart.zero 1000 (by rw [← hstart.here, hend]; decide) (by decide)
  have h₀ := Machine.Inherits.refl_of_create hcreate
  obtain ⟨hfits₁, h₁, hitems₁⟩ := h₀.push hwithin hempty (hroom (by decide)) 65530
  obtain ⟨hfits₂, h₂, hitems₂⟩ := h₁.push hwithin hitems₁ (hroom (by decide)) 7
  obtain ⟨hfits₃, h₃, hitems₃⟩ := h₂.push hwithin hitems₂ (hroom (by decide)) 1000
  have hperform₁ := Request.perform_push h₀.within hfits₁ 0
  have hperform₂ := Request.perform_push h₁.within hfits₂ 0
  have hperform₃ := Request.perform_push h₂.within hfits₃ 0
  have hpoison : m.poison? = none := by
    rw [Machine.poison?, hnew.regs]
    rfl
  have hback : ((771 : Cell).toNat : Int) = m.regs.here.toNat + Cell.signed 65530 := by
    rw [hend]
    decide
  obtain ⟨m', hevaluate, hcell, hhere', hfault⟩ :=
    h₃.evaluate_store_allot_drop hcreate hpoison hitems₃ (by rw [hend]; decide)
      (by rw [hbase]; decide) (by decide) (by rw [hbase]; decide) hback
  have hperform : (Request.evaluate "! allot drop").perform 3 _ =
      some (.error (.host (.fault .stackUnderflow)) m') := congrArg Request.ofHost hevaluate
  have ht := Transcript.cons hperform₁ (.cons hperform₂ (.cons hperform₃ (.cons hperform (.nil _))))
  exact ⟨m, m', _, hcreate, ht, rfl, hzero, hcell, hhere, hhere', hfault,
    ht.withinRegions_and_regions_eq hcreate⟩

end CellForth
