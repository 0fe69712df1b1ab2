import QemuArm.MemoryApi
import QemuArm.Reach

/-!
# What listeners hold

A listener that takes `region_add` and `region_del` can keep the sections of the address
spaces it listens to. `holds` follows a log of calls, and `DelsHeld` says that only sections
it holds are deleted. An update sends the difference between two flat views : the deletions
of the first pass and the additions of the second (`topologyPass_difference`), so what the
listener holds moves from the one view to the other.

`listeners_consistent` : in every run, a listener holds exactly the current flat views of the
address spaces it listens to. It needs that an address space is destroyed with an empty flat
view (`Drained`) : `address_space_destroy` sets no update pending, so its own transaction
never tells listeners anything.
-/

namespace QemuArm

open List Option Multiset

open AddressArith

/-! ## Logs -/

/-- The section of a range whose start fits 64 bits. -/
def rangeSection (as : AsPtr) (fr : FlatRange Int128) : MemoryRegionSection :=
  ⟨some fr.mr, as, fr.offsetInRegion, fr.addr.size, fr.addr.start.lo, fr.readonly⟩

/-- What is held after one more call. -/
def holdStep (held : Multiset MemoryRegionSection) (c : ListenerCall) :
    Multiset MemoryRegionSection :=
  match c.callback, c.sec with
  | .regionAdd, some sec => sec ::ₘ held
  | .regionDel, some sec => held.erase sec
  | _, _ => held

def holds (held : Multiset MemoryRegionSection) (cs : List ListenerCall) :
    Multiset MemoryRegionSection :=
  cs.foldl holdStep held

/-- Every section deleted is held. -/
def DelsHeld : Multiset MemoryRegionSection → List ListenerCall → Prop
  | _, [] => True
  | held, c :: cs =>
    (c.callback = .regionDel → ∀ sec, c.sec = some sec → sec ∈ held) ∧ DelsHeld (holdStep held c) cs

/-- Calls other than additions and deletions. -/
def Neutral (c : ListenerCall) : Prop := c.callback ≠ .regionAdd ∧ c.callback ≠ .regionDel

section Logs

variable {held : Multiset MemoryRegionSection}

theorem holdStep_neutral {c} (h : Neutral c) : holdStep held c = held := by
  obtain ⟨hadd, hdel⟩ := h
  unfold holdStep
  split
  · rename_i hc _
    exact absurd hc hadd
  · rename_i hc _
    exact absurd hc hdel
  · rfl

theorem holds_cons (held : Multiset MemoryRegionSection) (c : ListenerCall)
    (cs : List ListenerCall) : holds held (c :: cs) = holds (holdStep held c) cs := rfl

theorem holds_append (held : Multiset MemoryRegionSection) (cs cs' : List ListenerCall) :
    holds held (cs ++ cs') = holds (holds held cs) cs' :=
  foldl_append

theorem delsHeld_append : ∀ cs cs' held,
    DelsHeld held (cs ++ cs') ↔ DelsHeld held cs ∧ DelsHeld (holds held cs) cs'
  | [], cs', held => by simp [DelsHeld, holds]
  | c :: cs, cs', held => by
    rw [cons_append, DelsHeld, DelsHeld, delsHeld_append cs cs', and_assoc]
    rfl

/-- Calls that are not deletions delete nothing. -/
theorem delsHeld_of_forall_ne : ∀ cs held, (∀ c ∈ cs, c.callback ≠ .regionDel) → DelsHeld held cs
  | [], _, _ => trivial
  | c :: cs, _, h =>
    ⟨fun hc => absurd hc (h c mem_cons_self),
      delsHeld_of_forall_ne cs _ fun c' hc' => h c' (mem_cons_of_mem c hc')⟩

theorem holds_neutral : ∀ cs held, (∀ c ∈ cs, Neutral c) → holds held cs = held
  | [], _, _ => rfl
  | c :: cs, held, h => by
    rw [holds_cons, holdStep_neutral (h c mem_cons_self)]
    exact holds_neutral cs held fun c' hc' => h c' (mem_cons_of_mem c hc')

/-- A listener misses only calls that change nothing. -/
theorem holds_filter {keep} (hk : ∀ c, keep c = false → Neutral c) :
    ∀ cs held,
      holds held (cs.filter keep) = holds held cs ∧
        (DelsHeld held cs → DelsHeld held (cs.filter keep))
  | [], _ => ⟨rfl, id⟩
  | c :: cs, held => by
    obtain ⟨ih, ih'⟩ := holds_filter hk cs (holdStep held c)
    cases hc : keep c with
    | true =>
      rw [filter_cons_of_pos hc]
      exact ⟨ih, fun h => ⟨h.1, ih' h.2⟩⟩
    | false =>
      rw [filter_cons_of_neg (by simp [hc]), holds_cons, DelsHeld, holdStep_neutral (hk c hc)]
      rw [holdStep_neutral (hk c hc)] at ih ih'
      exact ⟨ih, fun h => ih' h.2⟩

/-- Deleting sections one after the other. -/
theorem holds_dels : ∀ (secs : List MemoryRegionSection) (rest : Multiset MemoryRegionSection),
    holds (↑secs + rest) (secs.map fun sec => ⟨.regionDel, some sec, none⟩) = rest ∧
      DelsHeld (↑secs + rest) (secs.map fun sec => ⟨.regionDel, some sec, none⟩)
  | [], rest => ⟨zero_add rest, trivial⟩
  | sec :: secs, rest => by
    have hstep : holdStep (↑(sec :: secs) + rest) ⟨.regionDel, some sec, none⟩ = ↑secs + rest := by
      rw [← cons_coe, cons_add]
      exact erase_cons_head sec _
    obtain ⟨ih, ih'⟩ := holds_dels secs rest
    refine ⟨?_, ⟨fun _ s hs => ?_, ?_⟩⟩
    · rw [List.map_cons, holds_cons, hstep]
      exact ih
    · cases hs
      exact mem_add.2 (.inl (by simp))
    · rw [hstep]
      exact ih'

/-- The sections that a list of calls adds. -/
def addedBy (cs : List ListenerCall) : List MemoryRegionSection :=
  cs.filterMap fun c => if c.callback = .regionAdd then c.sec else none

theorem addedBy_append (cs cs' : List ListenerCall) :
    addedBy (cs ++ cs') = addedBy cs ++ addedBy cs' := filterMap_append

theorem holds_adds : ∀ cs held,
    (∀ c ∈ cs, c.callback ≠ .regionDel) → holds held cs = ↑(addedBy cs) + held
  | [], held, _ => (zero_add held).symm
  | c :: cs, held, h => by
    have ih := holds_adds cs (holdStep held c) fun c' hc' => h c' (mem_cons_of_mem c hc')
    rw [holds_cons, ih, addedBy, addedBy, List.filterMap_cons]
    split_ifs with hadd
    · unfold holdStep
      rw [hadd]
      cases c.sec with
      | none => rfl
      | some sec =>
        rw [← cons_coe, cons_add, add_cons]
    · rw [holdStep_neutral ⟨hadd, h c mem_cons_self⟩]

end Logs

/-! ## The difference of two views -/

/-- The call that a range leads to. -/
def regionCall (as : AsPtr) (c : Callback × FlatRange Int128) : ListenerCall :=
  ⟨c.1, some (rangeSection as c.2), none⟩

theorem flatrangeEqual_section {a b} (h : flatrangeEqual a b) (as : AsPtr) :
    rangeSection as a = rangeSection as b := by
  have heq : ∀ x y : Int128, AddressArith.eq x y = true → x = y := by
    intro x y hxy
    have hxy' : (x.lo == y.lo && x.hi == y.hi) = true := hxy
    simp only [Bool.and_eq_true, beq_iff_eq] at hxy'
    exact Int128.ext hxy'.1 hxy'.2
  simp only [flatrangeEqual, addrrangeEqual, Bool.and_eq_true, beq_iff_eq] at h
  obtain ⟨⟨⟨⟨hmr, hstart, hsize⟩, hoff⟩, -⟩, hro⟩ := h
  rw [rangeSection, rangeSection, hmr, heq _ _ hstart, heq _ _ hsize, hoff, hro]

/-- The calls `dels` of the first pass and `adds` of the second lead from `old` to `new`. -/
def Difference (as : AsPtr) (old new : FlatView Int128)
    (dels adds : List (Callback × FlatRange Int128)) : Prop :=
  ∃ (gone : FlatView Int128) (common : Multiset MemoryRegionSection),
    dels = gone.map (fun fr => (.regionDel, fr)) ∧ (∀ c ∈ adds, c.1 ≠ .regionDel) ∧
      (↑(old.map (rangeSection as)) : Multiset MemoryRegionSection) =
        ↑(gone.map (rangeSection as)) + common ∧
      (↑(new.map (rangeSection as)) : Multiset MemoryRegionSection) =
        ↑(addedBy (adds.map (regionCall as))) + common

section Difference

variable {as : AsPtr} {old new : FlatView Int128} {dels adds : List (Callback × FlatRange Int128)}

section

variable (h : Difference as old new dels adds)
include h

theorem Difference.del (frold : FlatRange Int128) :
    Difference as (frold :: old) new ([(.regionDel, frold)] ++ dels) adds := by
  obtain ⟨gone, common, rfl, hadds, hold, hnew⟩ := h
  refine ⟨frold :: gone, common, rfl, hadds, ?_, hnew⟩
  rw [List.map_cons, List.map_cons, ← Multiset.cons_coe, ← Multiset.cons_coe, hold, cons_add]

theorem Difference.add (frnew : FlatRange Int128) :
    Difference as old (frnew :: new) dels ([(.regionAdd, frnew)] ++ adds) := by
  obtain ⟨gone, common, rfl, hadds, hold, hnew⟩ := h
  refine ⟨gone, common, rfl, fun c hc => ?_, hold, ?_⟩
  · rcases mem_cons.1 hc with rfl | hc
    · nofun
    · exact hadds c hc
  · rw [List.map_cons, ← Multiset.cons_coe, hnew, ← Multiset.cons_add, Multiset.cons_coe]
    rfl

/-- A range that is in both views is neither deleted nor added. -/
theorem Difference.same {frold frnew} (heq : flatrangeEqual frold frnew) :
    Difference as (frold :: old) (frnew :: new) dels (unchangedCalls frold frnew ++ adds) := by
  obtain ⟨gone, common, rfl, hadds, hold, hnew⟩ := h
  have hneutral : ∀ c ∈ unchangedCalls frold frnew,
      c.1 ≠ Callback.regionDel ∧ c.1 ≠ Callback.regionAdd := by
    unfold unchangedCalls
    split_ifs <;> simp
  refine ⟨gone, rangeSection as frold ::ₘ common, rfl, fun c hc => ?_, ?_, ?_⟩
  · rcases mem_append.1 hc with hc | hc
    · exact (hneutral c hc).1
    · exact hadds c hc
  · rw [List.map_cons, ← Multiset.cons_coe, hold, Multiset.add_cons]
  · have hnone : addedBy ((unchangedCalls frold frnew).map (regionCall as)) = [] := by
      refine filterMap_eq_nil_iff.2 fun c hc => ?_
      obtain ⟨c', hc', rfl⟩ := mem_map.1 hc
      exact if_neg (hneutral c' hc').2
    rw [List.map_cons, ← Multiset.cons_coe, hnew, List.map_append, addedBy_append, hnone,
      nil_append, Multiset.add_cons, flatrangeEqual_section heq]

end

theorem topologyPassFrom_difference {frold rest₀ rest₁}
    (hrest : ∀ new, Difference as old new (rest₀ new) (rest₁ new)) : ∀ new : FlatView Int128,
    Difference as (frold :: old) new (topologyPassFrom false frold rest₀ new)
      (topologyPassFrom true frold rest₁ new)
  | [] => (hrest []).del frold
  | frnew :: new => by
    rw [topologyPassFrom, topologyPassFrom]
    split
    · exact (hrest (frnew :: new)).del frold
    split
    · rename_i heq
      exact (hrest new).same heq
    · exact (topologyPassFrom_difference hrest new).add frnew

theorem difference_nil : ∀ new : FlatView Int128,
    Difference as [] new [] (new.map fun frnew => (.regionAdd, frnew))
  | [] => ⟨[], 0, rfl, nofun, rfl, rfl⟩
  | frnew :: new => (difference_nil new).add frnew

/-- The two passes make the same decisions, and send the difference of the views. -/
theorem topologyPass_difference (as : AsPtr) : ∀ old new : FlatView Int128,
    Difference as old new (topologyPass false old new) (topologyPass true old new)
  | [], new => difference_nil new
  | _ :: old, new => topologyPassFrom_difference (topologyPass_difference as old) new

end Difference

/-! ## Delivery -/

namespace MemoryListener

/-- The listener after the calls for the address space `as`. -/
def receive (as : AsPtr) (cs : List ListenerCall) (l : MemoryListener) : MemoryListener :=
  if l.accepts as then { l with log := l.log ++ cs.filter fun c => l.has c.callback } else l

theorem call_eq (l : MemoryListener) (c : ListenerCall) :
    l.call c = { l with log := l.log ++ [c].filter fun c => l.has c.callback } := by
  unfold call
  cases hc : l.has c.callback <;> simp [hc]

theorem receive_nil (as : AsPtr) (l : MemoryListener) : l.receive as [] = l := by
  unfold receive
  split <;> simp

theorem receive_append (as : AsPtr) (cs cs' : List ListenerCall) (l : MemoryListener) :
    l.receive as (cs ++ cs') = (l.receive as cs).receive as cs' := by
  unfold receive
  cases h : l.accepts as with
  | false => simp [h]
  | true =>
    have h' : ({ l with log := l.log ++ cs.filter fun c => l.has c.callback } :
      MemoryListener).accepts as = true := h
    simp [h', filter_append, append_assoc]

end MemoryListener

theorem memoryListenerCall_eq (as : AsPtr) (c : ListenerCall) (ls : List MemoryListener) :
    memoryListenerCall as c ls = ls.map fun l => l.receive as [c] := by
  unfold memoryListenerCall MemoryListener.receive
  simp only [MemoryListener.call_eq]

variable {as : AsPtr}

/-- Calls made one after the other. -/
theorem foldlM_receive {β : Type} {call} {f}
    (hf : ∀ ls b ls', f ls b = some ls' → ls' = ls.map fun l => l.receive as [call b]) :
    ∀ (bs : List β) (ls ls' : List MemoryListener), bs.foldlM f ls = some ls' →
      ls' = ls.map fun l => l.receive as (bs.map call)
  | [], ls, ls', h => by
    cases h
    simp [MemoryListener.receive_nil]
  | b :: bs, ls, ls', h => by
    obtain ⟨ls₁, h₁, hrest⟩ := bind_eq_some_iff.1 h
    rw [foldlM_receive hf bs ls₁ ls' hrest, hf ls b ls₁ h₁, List.map_map]
    refine map_congr_left fun l _ => ?_
    rw [List.map_cons, Function.comp_apply, ← MemoryListener.receive_append]
    rfl

theorem sectionOf_eq {fr sec} (h : sectionOf as fr = some sec) : sec = rangeSection as fr := by
  simp only [sectionOf, Int128.get64, bind_eq_bind, bind_eq_some_iff] at h
  obtain ⟨start, hstart, hsec⟩ := h
  split at hstart
  · cases hstart
    cases hsec
    rfl
  · cases hstart

variable {ls ls' : List MemoryListener}

theorem addressSpaceUpdateTopologyPass_eq {old new} {adding : Bool}
    (h : addressSpaceUpdateTopologyPass as old new adding ls = some ls') :
    ls' = ls.map fun l => l.receive as ((topologyPass adding old new).map (regionCall as)) := by
  refine foldlM_receive (fun ls c ls' hc => ?_) _ ls ls' h
  simp only [memoryListenerUpdateRegion, bind_eq_bind, bind_eq_some_iff, some.injEq] at hc
  obtain ⟨sec, hsec, rfl⟩ := hc
  rw [sectionOf_eq hsec, memoryListenerCall_eq]
  rfl

theorem mem_ioeventfdCallsFrom {fdold rest}
    (hrest : ∀ new, ∀ c ∈ rest new, c.1 = .eventfdAdd ∨ c.1 = .eventfdDel) :
    ∀ new, ∀ c ∈ ioeventfdCallsFrom fdold rest new, c.1 = .eventfdAdd ∨ c.1 = .eventfdDel
  | [], c, hc => by
    rcases mem_cons.1 hc with rfl | hc
    · exact .inr rfl
    · exact hrest [] c hc
  | fdnew :: new, c, hc => by
    rw [ioeventfdCallsFrom] at hc
    split at hc
    · rcases mem_cons.1 hc with rfl | hc
      · exact .inr rfl
      · exact hrest _ c hc
    split at hc
    · rcases mem_cons.1 hc with rfl | hc
      · exact .inl rfl
      · exact mem_ioeventfdCallsFrom hrest new c hc
    · exact hrest new c hc

theorem mem_ioeventfdCalls : ∀ old new, ∀ c ∈ ioeventfdCalls old new,
    c.1 = .eventfdAdd ∨ c.1 = .eventfdDel
  | [], new, c, hc => by
    obtain ⟨fd, -, rfl⟩ := mem_map.1 hc
    exact .inl rfl
  | _ :: old, new, c, hc => mem_ioeventfdCallsFrom (mem_ioeventfdCalls old) new c hc

variable {mem : Memory}

/-- Ioeventfds are neither added nor deleted as sections. -/
theorem addressSpaceUpdateIoeventfds_eq {as as'}
    (h : addressSpaceUpdateIoeventfds mem as ls = some (as', ls')) :
    as'.ptr = as.ptr ∧ as'.currentMap = as.currentMap ∧ as'.root = as.root ∧
      ∃ cs : List ListenerCall, (∀ c ∈ cs, Neutral c) ∧
        ls' = ls.map fun l => l.receive as.ptr cs := by
  simp only [addressSpaceUpdateIoeventfds, bind_eq_bind, bind_eq_some_iff,
    some.injEq, Prod.mk.injEq] at h
  obtain ⟨ls₁, hcalls, rfl, rfl⟩ := h
  have hone : ∀ ls c ls', ioeventfdCall as.ptr ls c = some ls' → ls' = ls.map fun l =>
      l.receive as.ptr [⟨c.1, some ⟨none, as.ptr, 0, c.2.addr.size, c.2.addr.start.lo, false⟩,
        some (c.2.matchData, c.2.data, c.2.e)⟩] := by
    intro ls c ls' hc
    simp only [ioeventfdCall, Int128.get64, bind_eq_bind, bind_eq_some_iff, some.injEq] at hc
    obtain ⟨start, hstart, rfl⟩ := hc
    split at hstart
    · cases hstart
      exact memoryListenerCall_eq _ _ _
    · cases hstart
  refine ⟨rfl, rfl, rfl, _, ?_, foldlM_receive hone _ ls ls₁ hcalls⟩
  intro c hc
  obtain ⟨c', hc', rfl⟩ := mem_map.1 hc
  rcases mem_ioeventfdCalls _ _ c' hc' with h | h <;> constructor <;> dsimp only <;> rw [h] <;>
    nofun

/-! ## Updates -/

/-- The sections of the current flat view. -/
def AddressSpace.sections (as : AddressSpace) : Multiset MemoryRegionSection :=
  ↑(as.currentMap.map (rangeSection as.ptr))

open AddressSpace

variable {stack : ℕ}

/-- One update : deletions, then the rest. -/
theorem addressSpaceUpdateTopology_eq {as as'}
    (h : addressSpaceUpdateTopology stack mem as ls = some (as', ls')) :
    as'.ptr = as.ptr ∧ (as.root = none → as'.currentMap = []) ∧
      ∃ dels adds : List ListenerCall, (∀ c ∈ dels, c.callback = .regionDel) ∧
        (∀ c ∈ adds, c.callback ≠ .regionDel) ∧
        (ls' = ls.map fun l => l.receive as.ptr (dels ++ adds)) ∧
        ∀ K, holds (K + as.sections) (dels ++ adds) = K + as'.sections ∧
          DelsHeld (K + as.sections) (dels ++ adds) := by
  simp only [addressSpaceUpdateTopology, bind_eq_bind, bind_eq_some_iff] at h
  obtain ⟨new, hnew, ls₁, hpass₁, ls₂, hpass₂, hfds⟩ := h
  obtain ⟨hptr, hmap, -, cs, hcs, hls'⟩ := addressSpaceUpdateIoeventfds_eq hfds
  obtain ⟨gone, common, hdels, hadds, hold, hnew'⟩ :=
    topologyPass_difference as.ptr as.currentMap new
  rw [addressSpaceUpdateTopologyPass_eq hpass₁] at hpass₂
  rw [addressSpaceUpdateTopologyPass_eq hpass₂] at hls'
  have hsections : as'.sections = ↑(addedBy ((topologyPass true as.currentMap new).map
      (regionCall as.ptr))) + common := by
    rw [AddressSpace.sections, hmap, hptr]
    exact hnew'
  have hne : ∀ c ∈ (topologyPass true as.currentMap new).map (regionCall as.ptr) ++ cs,
      c.callback ≠ .regionDel := by
    intro c hc
    rcases mem_append.1 hc with hc | hc
    · obtain ⟨c', hc', rfl⟩ := mem_map.1 hc
      exact hadds c' hc'
    · exact (hcs c hc).2
  have hcalls : (topologyPass false as.currentMap new).map (regionCall as.ptr) =
      (gone.map (rangeSection as.ptr)).map fun sec => ⟨.regionDel, some sec, none⟩ := by
    rw [hdels, List.map_map, List.map_map]
    rfl
  refine ⟨hptr, fun hroot => ?_, (topologyPass false as.currentMap new).map (regionCall as.ptr),
    (topologyPass true as.currentMap new).map (regionCall as.ptr) ++ cs, fun c hc => ?_, hne, ?_,
    fun K => ?_⟩
  · rw [hmap]
    rw [hroot] at hnew
    cases hnew
    rfl
  · rw [hcalls] at hc
    obtain ⟨sec, -, rfl⟩ := mem_map.1 hc
    rfl
  · rw [hls', List.map_map, List.map_map]
    refine map_congr_left fun l _ => ?_
    simp only [Function.comp_apply, MemoryListener.receive_append]
  · have hsplit : K + as.sections = ↑(gone.map (rangeSection as.ptr)) + (common + K) := by
      rw [AddressSpace.sections, hold, add_comm K, add_assoc]
    obtain ⟨hdel, hdel'⟩ := holds_dels (gone.map (rangeSection as.ptr)) (common + K)
    have hneutral : addedBy cs = [] :=
      filterMap_eq_nil_iff.2 fun c hc => if_neg (hcs c hc).1
    rw [hcalls, hsplit, holds_append, delsHeld_append, hdel]
    refine ⟨?_, hdel', delsHeld_of_forall_ne _ _ hne⟩
    rw [holds_adds _ _ hne, addedBy_append, hneutral, append_nil, hsections, ← add_assoc, add_comm]

/-- The sections of the address spaces that a listener listens to. -/
def MemoryListener.listened (l : MemoryListener) (spaces : List AddressSpace) :
    Multiset MemoryRegionSection :=
  ((spaces.filter fun as => l.accepts as.ptr).map AddressSpace.sections).sum

theorem listened_cons (l : MemoryListener) (as : AddressSpace) (spaces : List AddressSpace) :
    l.listened (as :: spaces) =
      (if l.accepts as.ptr then as.sections else 0) + l.listened spaces := by
  unfold MemoryListener.listened
  rw [filter_cons]
  split <;> simp

/-- The listener takes the calls that decide what it holds. -/
def MemoryListener.Keeps (l : MemoryListener) : Prop := l.has .regionAdd ∧ l.has .regionDel

/-- The calls `cs` lead a listener from the sections `old` to `new`, whatever else it holds. -/
def Leads (old new : Multiset MemoryRegionSection) (cs : List ListenerCall) : Prop :=
  ∀ K, holds (K + old) cs = K + new ∧ DelsHeld (K + old) cs

variable {old new : Multiset MemoryRegionSection} {cs : List ListenerCall}

theorem Leads.append {mid cs'}
    (h : Leads old mid cs) (h' : Leads mid new cs') : Leads old new (cs ++ cs') := by
  intro K
  rw [holds_append, delsHeld_append, (h K).1]
  exact ⟨(h' K).1, (h K).2, (h' K).2⟩

/-- Other sections stay as they are. -/
theorem Leads.add_right (h : Leads old new cs) (rest : Multiset MemoryRegionSection) :
    Leads (old + rest) (new + rest) cs := by
  intro K
  have := h (K + rest)
  rw [add_assoc, add_comm rest, add_assoc, add_comm rest] at this
  exact this

theorem Leads.add_left (h : Leads old new cs) (rest : Multiset MemoryRegionSection) :
    Leads (rest + old) (rest + new) cs := by
  rw [add_comm rest, add_comm rest]
  exact h.add_right rest

theorem leads_neutral {held} (h : ∀ c ∈ cs, Neutral c) : Leads held held cs := fun _ =>
  ⟨holds_neutral cs _ h, delsHeld_of_forall_ne cs _ fun c hc => (h c hc).2⟩

variable {l : MemoryListener}

theorem Leads.filter (h : Leads old new cs) (hl : l.Keeps) :
    Leads old new (cs.filter fun c => l.has c.callback) := by
  have hk : ∀ c : ListenerCall, l.has c.callback = false → Neutral c := by
    intro c hc
    constructor <;> intro h
    · rw [h, hl.1] at hc
      cases hc
    · rw [h, hl.2] at hc
      cases hc
  intro K
  obtain ⟨hholds, hdels⟩ := holds_filter hk cs (K + old)
  exact ⟨hholds.trans (h K).1, hdels (h K).2⟩

/-- The listeners after calls that lead each of them from `old` to `new`. -/
def Delivered (ls ls' : List MemoryListener)
    (old new : MemoryListener → Multiset MemoryRegionSection) : Prop :=
  ∃ cs : MemoryListener → List ListenerCall,
    (ls' = ls.map fun l => { l with log := l.log ++ cs l }) ∧
      ∀ l, l.Keeps → Leads (old l) (new l) (cs l)

section Delivered

variable {ls ls' ls'' : List MemoryListener}
  {old mid new : MemoryListener → Multiset MemoryRegionSection}

theorem delivered_neutral {c} (h : Neutral c) :
    Delivered ls (ls.map fun l => l.call c) old old := by
  refine ⟨fun l => [c].filter fun c => l.has c.callback, ?_, fun l _ => ?_⟩
  · simp only [MemoryListener.call_eq]
  · exact leads_neutral fun c' hc' => by
      rw [List.mem_singleton.1 (List.mem_of_mem_filter hc')]
      exact h

theorem Delivered.trans (h : Delivered ls ls' old mid) (h' : Delivered ls' ls'' mid new)
    (hmid : ∀ l log, mid { l with log } = mid l) (hnew : ∀ l log, new { l with log } = new l) :
    Delivered ls ls'' old new := by
  obtain ⟨cs, rfl, hcs⟩ := h
  obtain ⟨cs', rfl, hcs'⟩ := h'
  refine ⟨fun l => cs l ++ cs' { l with log := l.log ++ cs l }, ?_, fun l hl => ?_⟩
  · rw [List.map_map]
    refine map_congr_left fun l _ => ?_
    simp only [Function.comp_apply, append_assoc]
  · have hl' : MemoryListener.Keeps { l with log := l.log ++ cs l } := hl
    have h2 := hcs' _ hl'
    rw [hmid, hnew] at h2
    exact (hcs l hl).append h2

/-- An update of one address space, and what the others hold. -/
theorem delivered_receive {as as'} (hptr : as'.ptr = as.ptr)
    (hcs : Leads as.sections as'.sections cs) (rest : List AddressSpace) :
    Delivered ls (ls.map fun l => l.receive as.ptr cs) (fun l => l.listened (as :: rest))
      fun l => l.listened (as' :: rest) := by
  refine ⟨fun l => if l.accepts as.ptr then cs.filter fun c => l.has c.callback else [], ?_,
    fun l hl => ?_⟩
  · refine map_congr_left fun l _ => ?_
    unfold MemoryListener.receive
    split <;> rename_i ha <;> simp [ha]
  · simp only [listened_cons, hptr]
    split
    · exact (hcs.filter hl).add_right _
    · exact leads_neutral nofun

end Delivered

/-- An address space after a commit. -/
def Updated (s s' : AddressSpace) : Prop :=
  s'.ptr = s.ptr ∧ (s.root = none → s'.currentMap = [] ∨ s'.currentMap = s.currentMap)

theorem addressSpacesUpdate_delivered :
    ∀ spaces spaces' ls ls',
    addressSpacesUpdate stack mem spaces ls = some (spaces', ls') →
    List.Forall₂ Updated spaces spaces' ∧
      Delivered ls ls' (fun l => l.listened spaces) fun l => l.listened spaces'
  | [], spaces', ls, ls', h => by
    cases h
    exact ⟨.nil, fun _ => [], by simp, fun l _ => leads_neutral nofun⟩
  | as :: spaces, spaces', ls, ls', h => by
    simp only [addressSpacesUpdate, bind_eq_bind, bind_eq_some_iff, Prod.exists,
      some.injEq, Prod.mk.injEq] at h
    obtain ⟨as₁, ls₁, has, spaces₁, ls₂, hrest, rfl, rfl⟩ := h
    obtain ⟨hptr, hroot, dels, adds, -, -, hls₁, hleads⟩ := addressSpaceUpdateTopology_eq has
    obtain ⟨hupd, cs, hcs, hcs'⟩ := addressSpacesUpdate_delivered spaces spaces₁ ls₁ ls₂ hrest
    refine ⟨.cons ⟨hptr, fun h => .inl (hroot h)⟩ hupd, ?_⟩
    have hfirst : Delivered ls ls₁ (fun l => l.listened (as :: spaces))
        fun l => l.listened (as₁ :: spaces) := by
      rw [hls₁]
      exact delivered_receive hptr hleads spaces
    have hrest' : Delivered ls₁ ls₂ (fun l => l.listened (as₁ :: spaces))
        fun l => l.listened (as₁ :: spaces₁) := by
      refine ⟨cs, hcs, fun l hl => ?_⟩
      simp only [listened_cons]
      exact (hcs' l hl).add_left _
    exact hfirst.trans hrest' (fun _ _ => rfl) fun _ _ => rfl

theorem map_ptr_of_updated {spaces spaces'} (h : List.Forall₂ Updated spaces spaces') :
    spaces'.map ptr = spaces.map ptr := by
  induction h with
  | nil => rfl
  | cons hu _ ih => rw [List.map_cons, List.map_cons, hu.1, ih]

theorem exists_of_updated {spaces spaces'}
    (h : List.Forall₂ Updated spaces spaces') {s'} (hs' : s' ∈ spaces') :
    ∃ s ∈ spaces, Updated s s' := by
  induction h with
  | nil => cases hs'
  | cons hu _ ih =>
    rcases mem_cons.1 hs' with rfl | hs'
    · exact ⟨_, mem_cons_self, hu⟩
    · obtain ⟨s, hs, hu'⟩ := ih hs'
      exact ⟨s, mem_cons_of_mem _ hs, hu'⟩

/-! ## The calls of the API -/

/-- What every state of a run keeps : a listener holds the flat views it listens to. -/
structure Consistent (st : MemoryState) : Prop where
  nodup : (st.spaces.map AddressSpace.ptr).Nodup
  holds_eq : ∀ l ∈ st.listeners, l.Keeps → holds 0 l.log = l.listened st.spaces
  delsHeld : ∀ l ∈ st.listeners, l.Keeps → DelsHeld 0 l.log

section Calls

variable {stack : ℕ} {st st' : MemoryState}

/-- Changes that concern neither address spaces nor listeners. -/
theorem Consistent.of_eq (h : Consistent st) (hspaces : st'.spaces = st.spaces)
    (hlisteners : st'.listeners = st.listeners) : Consistent st' := by
  refine ⟨?_, ?_, ?_⟩
  · rw [hspaces]
    exact h.nodup
  · rw [hspaces, hlisteners]
    exact h.holds_eq
  · rw [hlisteners]
    exact h.delsHeld

theorem Consistent.of_delivered (h : Consistent st) (hptr : st'.spaces.map ptr = st.spaces.map ptr)
    (hd : Delivered st.listeners st'.listeners (fun l => l.listened st.spaces)
      fun l => l.listened st'.spaces) : Consistent st' := by
  obtain ⟨cs, hls, hleads⟩ := hd
  refine ⟨hptr ▸ h.nodup, fun l' hl' hk => ?_, fun l' hl' hk => ?_⟩ <;>
    rw [hls] at hl' <;> obtain ⟨l, hl, rfl⟩ := mem_map.1 hl'
  · have hlead := (hleads l hk 0).1
    rw [zero_add, zero_add] at hlead
    rw [holds_append, h.holds_eq l hl hk]
    exact hlead
  · have hlead := (hleads l hk 0).2
    rw [zero_add] at hlead
    rw [delsHeld_append, h.holds_eq l hl hk]
    exact ⟨h.delsHeld l hl hk, hlead⟩

/-- Listeners do not change but for their logs. -/
def Relogged (ls ls' : List MemoryListener) : Prop :=
  ∀ l' ∈ ls', ∃ l ∈ ls, ∃ log, l' = { l with log }

theorem Delivered.relogged {old new} (h : Delivered ls ls' old new) : Relogged ls ls' := by
  obtain ⟨cs, rfl, -⟩ := h
  intro l' hl'
  obtain ⟨l, hl, rfl⟩ := mem_map.1 hl'
  exact ⟨l, hl, _, rfl⟩

theorem memoryRegionTransactionCommit_consistent (hc : Consistent st)
    (h : memoryRegionTransactionCommit stack st = some st') :
    Consistent st' ∧ List.Forall₂ Updated st.spaces st'.spaces ∧
      Relogged st.listeners st'.listeners := by
  unfold memoryRegionTransactionCommit at h
  split at h
  · cases h
  split at h
  · simp only [bind_eq_bind, bind_eq_some_iff, Prod.exists, some.injEq] at h
    obtain ⟨spaces, ls, hrun, rfl⟩ := h
    obtain ⟨hupd, hd⟩ := addressSpacesUpdate_delivered _ _ _ _ hrun
    have hbegin : Delivered st.listeners (memoryListenerCallGlobal .begin st.listeners)
        (fun l => l.listened st.spaces) fun l => l.listened st.spaces :=
      delivered_neutral ⟨nofun, nofun⟩
    have hcommit : Delivered ls (memoryListenerCallGlobal .commit ls) (fun l => l.listened spaces)
        fun l => l.listened spaces := delivered_neutral ⟨nofun, nofun⟩
    have hall := (hbegin.trans hd (fun _ _ => rfl) fun _ _ => rfl).trans hcommit (fun _ _ => rfl)
      fun _ _ => rfl
    exact ⟨hc.of_delivered (map_ptr_of_updated hupd) hall, hupd, hall.relogged⟩
  · cases h
    exact ⟨hc.of_eq rfl rfl, forall₂_same.2 fun s _ => ⟨rfl, fun _ => .inr rfl⟩,
      fun l hl => ⟨l, hl, l.log, rfl⟩⟩

theorem inTransaction_consistent {body}
    (hbody : ∀ st₁, body (memoryRegionTransactionBegin st) = some st₁ → Consistent st₁)
    (h : inTransaction stack body st = some st') : Consistent st' := by
  simp only [inTransaction, bind_eq_bind, bind_eq_some_iff] at h
  obtain ⟨st₁, hst₁, hcommit⟩ := h
  exact (memoryRegionTransactionCommit_consistent (hbody st₁ hst₁) hcommit).1

theorem updateRegion_consistent {p} {f hf} (hc : Consistent st)
    (h : updateRegion stack p f hf st = some st') : Consistent st' :=
  inTransaction_consistent (fun st₁ hst₁ => by
    cases hst₁
    exact hc.of_eq rfl rfl) h

variable {subregion : MrPtr} {offset : Hwaddr}

variable {mr : MrPtr} {l' : MemoryListener}

section

variable (hc : Consistent st)
include hc

theorem memoryRegionAddSubregionCommon_consistent (h : memoryRegionAddSubregionCommon stack mr
      offset subregion st = some st') : Consistent st' := by
  refine inTransaction_consistent (fun st₁ hst₁ => ?_) h
  split at hst₁
  · cases hst₁
    exact hc.of_eq rfl rfl
  · cases hst₁

theorem memoryRegionAddSubregion_consistent (h : memoryRegionAddSubregion stack mr offset subregion
      st = some st') : Consistent st' := by
  refine memoryRegionAddSubregionCommon_consistent ?_ h
  exact hc.of_eq rfl rfl

theorem memoryRegionAddSubregionOverlap_consistent {priority} (h :
      memoryRegionAddSubregionOverlap stack mr offset subregion priority st = some st') :
    Consistent st' := by
  refine memoryRegionAddSubregionCommon_consistent ?_ h
  exact hc.of_eq rfl rfl

theorem memoryRegionDelSubregion_consistent (h : memoryRegionDelSubregion stack mr subregion st =
      some st') : Consistent st' := by
  refine inTransaction_consistent (fun st₁ hst₁ => ?_) h
  split at hst₁
  · cases hst₁
    exact hc.of_eq rfl rfl
  · cases hst₁

theorem memoryRegionSetAddress_consistent {p addr}
    (h : memoryRegionSetAddress stack p addr st = some st') : Consistent st' := by
  unfold memoryRegionSetAddress at h
  split at h
  · cases h
    exact hc.of_eq rfl rfl
  split at h
  · cases h
    exact hc.of_eq rfl rfl
  refine inTransaction_consistent (fun st₂ hst₂ => ?_) h
  simp only [bind_eq_bind, bind_eq_some_iff] at hst₂
  obtain ⟨st₁, hdel, hadd⟩ := hst₂
  have hc₀ : Consistent (memoryRegionTransactionBegin st) := hc.of_eq rfl rfl
  have hc₁ := memoryRegionDelSubregion_consistent hc₀ hdel
  split at hadd
  · exact memoryRegionAddSubregionOverlap_consistent hc₁ hadd
  · exact memoryRegionAddSubregion_consistent hc₁ hadd

/-! ### Listeners and address spaces -/

end

theorem addedBy_regionCalls (as : AsPtr) (view : FlatView Int128) :
    addedBy (view.map fun fr => regionCall as (.regionAdd, fr)) = view.map (rangeSection as) := by
  rw [addedBy, List.filterMap_map]
  exact congrFun (List.filterMap_eq_map (f := rangeSection as)) view

/-- The replay of a flat view to a new listener. -/
theorem replay_eq : ∀ (view : FlatView Int128) (l l' : MemoryListener),
    view.foldlM (fun l fr => do
      let sec ← sectionOf as fr
      some (l.call ⟨.regionAdd, some sec, none⟩)) l = some l' →
    l' = { l with
      log := l.log ++ (view.map fun fr => regionCall as (.regionAdd, fr)).filter
        fun c => l.has c.callback }
  | [], l, l', h => by
    cases h
    simp
  | fr :: view, l, l', h => by
    simp only [foldlM_cons, bind_eq_bind, bind_eq_some_iff, some.injEq] at h
    obtain ⟨l₁, ⟨sec, hsec, rfl⟩, hrest⟩ := h
    rw [replay_eq view _ l' hrest, sectionOf_eq hsec, MemoryListener.call_eq]
    simp only [append_assoc, ← filter_append]
    rfl

theorem listenerAddAddressSpace_eq {globalDirtyLog : Bool} {as}
    (h : listenerAddAddressSpace globalDirtyLog l as = some l') :
    ∃ cs, l' = { l with log := l.log ++ cs } ∧
      (l.Keeps → Leads 0 (if l.accepts as.ptr then as.sections else 0) cs) := by
  unfold listenerAddAddressSpace at h
  split at h
  · rename_i hacc
    cases h
    refine ⟨[], by simp, fun _ => ?_⟩
    rw [if_neg (by simpa using hacc)]
    exact leads_neutral nofun
  · rename_i hacc
    obtain ⟨cs₀, hcs₀, hneutral⟩ : ∃ cs₀ : List ListenerCall,
        (if globalDirtyLog then l.call ⟨.logGlobalStart, none, none⟩ else l) =
          { l with log := l.log ++ cs₀ } ∧ ∀ c ∈ cs₀, Neutral c := by
      split
      · refine ⟨_, l.call_eq _, fun c hc => ?_⟩
        rw [List.mem_singleton.1 (List.mem_of_mem_filter hc)]
        exact ⟨nofun, nofun⟩
      · exact ⟨[], by simp, nofun⟩
    rw [hcs₀] at h
    refine ⟨_, by rw [replay_eq _ _ l' h, append_assoc], fun hk => ?_⟩
    rw [if_pos (by simpa using hacc)]
    refine (leads_neutral hneutral).append (Leads.filter (fun K => ?_) hk)
    have hne : ∀ c ∈ as.currentMap.map fun fr => regionCall as.ptr (.regionAdd, fr),
        c.callback ≠ .regionDel := by
      intro c hc
      obtain ⟨fr, -, rfl⟩ := mem_map.1 hc
      nofun
    refine ⟨?_, delsHeld_of_forall_ne _ _ hne⟩
    rw [holds_adds _ _ hne, addedBy_regionCalls, add_zero, add_comm]
    rfl

theorem replayAll_eq {globalDirtyLog : Bool} : ∀ (spaces : List AddressSpace)
    (l l' : MemoryListener), spaces.foldlM (listenerAddAddressSpace globalDirtyLog) l = some l' →
    ∃ cs, l' = { l with log := l.log ++ cs } ∧ (l.Keeps → Leads 0 (l.listened spaces) cs)
  | [], l, l', h => by
    cases h
    exact ⟨[], by simp, fun _ => leads_neutral nofun⟩
  | as :: spaces, l, l', h => by
    obtain ⟨l₁, h₁, hrest⟩ := bind_eq_some_iff.1 h
    obtain ⟨cs₁, rfl, hleads₁⟩ := listenerAddAddressSpace_eq h₁
    obtain ⟨cs₂, rfl, hleads₂⟩ := replayAll_eq spaces _ l' hrest
    refine ⟨cs₁ ++ cs₂, by rw [append_assoc], fun hk => ?_⟩
    rw [listened_cons]
    have h2 := (hleads₂ hk).add_left (if l.accepts as.ptr then as.sections else 0)
    rw [add_zero] at h2
    exact (hleads₁ hk).append h2

theorem mem_insertListenerBefore : ∀ {ls : List MemoryListener},
    l' ∈ insertListenerBefore l ls → l' = l ∨ l' ∈ ls
  | [], h => .inl (List.mem_singleton.1 h)
  | other :: ls, h => by
    rw [insertListenerBefore] at h
    split at h
    · exact mem_cons.1 h
    · rcases mem_cons.1 h with rfl | h
      · exact .inr mem_cons_self
      · exact (mem_insertListenerBefore h).imp_right (mem_cons_of_mem other)

theorem mem_insertListener (h : l' ∈ insertListener l ls) : l' = l ∨ l' ∈ ls := by
  unfold insertListener at h
  split at h
  · exact .inl (List.mem_singleton.1 h)
  split at h
  · rcases mem_append.1 h with h | h
    · exact .inr h
    · exact .inl (List.mem_singleton.1 h)
  · exact mem_insertListenerBefore h

theorem memoryListenerRegister_consistent {ptr} {priority : ℤ} {filter} {has} (hc : Consistent st)
    (h : memoryListenerRegister ptr priority filter has st = some st') :
    Consistent st' ∧ st'.spaces = st.spaces := by
  unfold memoryListenerRegister at h
  split at h
  · cases h
  simp only [bind_eq_bind, bind_eq_some_iff, some.injEq] at h
  obtain ⟨l, hl, rfl⟩ := h
  obtain ⟨cs, rfl, hleads⟩ := replayAll_eq _ _ l hl
  refine ⟨⟨hc.nodup, fun l' hl' hk => ?_, fun l' hl' hk => ?_⟩, rfl⟩
  · rcases mem_insertListener hl' with rfl | hl'
    · have := (hleads hk 0).1
      rw [zero_add, zero_add] at this
      exact this
    · exact hc.holds_eq l' hl' hk
  · rcases mem_insertListener hl' with rfl | hl'
    · exact (hleads hk 0).2
    · exact hc.delsHeld l' hl' hk

theorem memoryListenerUnregister_consistent {ptr} (hc : Consistent st)
    (h : memoryListenerUnregister ptr st = some st') : Consistent st' := by
  unfold memoryListenerUnregister at h
  split at h
  · cases h
    exact ⟨hc.nodup, fun l hl => hc.holds_eq l (mem_of_mem_filter hl),
      fun l hl => hc.delsHeld l (mem_of_mem_filter hl)⟩
  · cases h

/-- An address space is destroyed with an empty flat view, or nobody listens to it. -/
def Drained (st : MemoryState) : MemoryOp → Prop
  | .addressSpaceDestroy as => (∀ s ∈ st.spaces, s.ptr = as → s.currentMap = []) ∨
      ∀ l ∈ st.listeners, l.Keeps → l.accepts as = false
  | _ => True

theorem listened_append (l : MemoryListener) (spaces spaces' : List AddressSpace) :
    l.listened (spaces ++ spaces') = l.listened spaces + l.listened spaces' := by
  simp [MemoryListener.listened]

theorem listened_filter {keep} :
    ∀ spaces, (∀ s ∈ spaces, keep s = false → l.accepts s.ptr →
      s.currentMap = []) → l.listened (spaces.filter keep) = l.listened spaces
  | [], _ => rfl
  | s :: spaces, h => by
    have ih := listened_filter spaces fun s' hs' => h s' (mem_cons_of_mem s hs')
    cases hk : keep s with
    | true => rw [filter_cons_of_pos hk, listened_cons, listened_cons, ih]
    | false =>
      rw [filter_cons_of_neg (by simp [hk]), listened_cons, ih]
      split
      · rename_i hacc
        rw [AddressSpace.sections, h s mem_cons_self hk hacc]
        exact (zero_add _).symm
      · exact (zero_add _).symm

theorem listened_map {f} (hf : ∀ s, (f s).ptr = s.ptr ∧ (f s).currentMap = s.currentMap) :
    ∀ spaces : List AddressSpace, l.listened (spaces.map f) = l.listened spaces
  | [] => rfl
  | s :: spaces => by
    rw [List.map_cons, listened_cons, listened_cons, listened_map hf spaces, AddressSpace.sections,
      (hf s).1, (hf s).2]
    rfl

section

variable (hc : Consistent st)
include hc

/-- A new address space has an empty flat view. -/
theorem Consistent.add_space (as : AsPtr) (root : Option MrPtr)
    (hnew : ∀ s ∈ st.spaces, s.ptr ≠ as) :
    Consistent { st with spaces := st.spaces ++ [⟨as, root, [], []⟩] } := by
  refine ⟨?_, fun l hl hk => ?_, hc.delsHeld⟩
  · rw [map_append, nodup_append]
    refine ⟨hc.nodup, List.nodup_singleton _, fun p hp q hq => ?_⟩
    obtain ⟨s, hs, rfl⟩ := mem_map.1 hp
    rw [List.map_singleton, List.mem_singleton] at hq
    rw [hq]
    exact hnew s hs
  · rw [listened_append, hc.holds_eq l hl hk, listened_cons]
    split <;> exact (add_zero _).symm

theorem Consistent.map_spaces {f} (hf : ∀ s, (f s).ptr = s.ptr ∧ (f s).currentMap = s.currentMap) :
    Consistent { st with spaces := st.spaces.map f } := by
  refine ⟨?_, fun l hl hk => ?_, hc.delsHeld⟩
  · have hptr : ptr ∘ f = ptr := funext fun s => (hf s).1
    rw [List.map_map, hptr]
    exact hc.nodup
  · rw [listened_map hf]
    exact hc.holds_eq l hl hk

theorem addressSpaceInit_consistent {root}
    (h : addressSpaceInit stack as root st = some st') : Consistent st' := by
  unfold addressSpaceInit at h
  split at h
  · cases h
  rename_i hnew
  refine inTransaction_consistent (fun st₁ hst₁ => ?_) h
  simp only [bind_eq_bind, bind_eq_some_iff, some.injEq] at hst₁
  obtain ⟨st₂, hreg, rfl⟩ := hst₁
  have hc₀ : Consistent (memoryRegionTransactionBegin st) := hc.of_eq rfl rfl
  have hc₁ := hc₀.add_space as (some root) fun s hs heq =>
    hnew (any_eq_true.2 ⟨s, hs, beq_iff_eq.2 heq⟩)
  exact (memoryListenerRegister_consistent hc₁ hreg).1.of_eq rfl rfl

/-- A destroyed space leaves no sections behind. -/
theorem addressSpaceDestroy_consistent (hok : Drained st (.addressSpaceDestroy as))
    (h : addressSpaceDestroy stack as st = some st') : Consistent st' := by
  unfold addressSpaceDestroy at h
  split at h
  swap
  · cases h
  simp only [bind_eq_bind, bind_eq_some_iff] at h
  obtain ⟨st₁, hclear, hunreg⟩ := h
  refine memoryListenerUnregister_consistent ?_ hunreg
  simp only [inTransaction, bind_eq_bind, bind_eq_some_iff, some.injEq] at hclear
  obtain ⟨st₀, rfl, hcommit⟩ := hclear
  have hf : ∀ s : AddressSpace, (s.clearRoot as).ptr = s.ptr ∧
      (s.clearRoot as).currentMap = s.currentMap := by
    intro s
    unfold clearRoot
    split <;> exact ⟨rfl, rfl⟩
  have hbegin : Consistent (memoryRegionTransactionBegin st) := hc.of_eq rfl rfl
  obtain ⟨hc₁, hupd, hrelog⟩ :=
    memoryRegionTransactionCommit_consistent (hbegin.map_spaces hf) hcommit
  refine ⟨hc₁.nodup.sublist (filter_sublist.map ptr), fun l hl hk => ?_, hc₁.delsHeld⟩
  rw [listened_filter]
  · exact hc₁.holds_eq l hl hk
  intro s hs hne hacc
  have has : s.ptr = as := by simpa using hne
  obtain ⟨s₀, hs₀, hptr, hmap⟩ := exists_of_updated hupd hs
  obtain ⟨s', hs', rfl⟩ := mem_map.1 hs₀
  rw [(hf s').1, has] at hptr
  have hroot : (s'.clearRoot as).root = none := by
    rw [clearRoot, if_pos hptr.symm]
  rcases hmap hroot with hempty | hsame
  · exact hempty
  rw [hsame, (hf s').2]
  rcases hok with hempty | hnobody
  · exact hempty s' hs' hptr.symm
  · obtain ⟨l₀, hl₀, log, rfl⟩ := hrelog l hl
    have hno : l₀.accepts as = false := hnobody l₀ hl₀ hk
    rw [has] at hacc
    exact absurd (hno.symm.trans hacc) Bool.false_ne_true

theorem Consistent.call_global (cb : Callback) (hcb : cb ≠ .regionAdd ∧ cb ≠ .regionDel)
    (globalDirtyLog : Bool) :
    Consistent { st with
      globalDirtyLog, listeners := memoryListenerCallGlobal cb st.listeners } :=
  hc.of_delivered rfl (delivered_neutral hcb)

/-- One call keeps every listener in step. -/
theorem memoryStep_consistent {op} (hok : Drained st op)
    (h : memoryStep stack op st = some st') : Consistent st' := by
  cases op with
  | transactionBegin =>
    cases h
    exact hc.of_eq rfl rfl
  | transactionCommit => exact (memoryRegionTransactionCommit_consistent hc h).1
  | setLog | setReadonly | romDeviceSetRomd | setAliasOffset | addEventfd | delEventfd =>
    rcases memoryStep_inPlace h trivial with rfl | ⟨p, f, hf, h, -⟩
    · exact hc
    · exact updateRegion_consistent hc h
  | addSubregion mr offset subregion => exact memoryRegionAddSubregion_consistent hc h
  | addSubregionOverlap mr offset subregion priority =>
    exact memoryRegionAddSubregionOverlap_consistent hc h
  | delSubregion mr subregion => exact memoryRegionDelSubregion_consistent hc h
  | setEnabled p enabled =>
    simp only [memoryStep, memoryRegionSetEnabled] at h
    split at h
    · cases h
      exact hc
    · refine inTransaction_consistent (fun st₁ hst₁ => ?_) h
      cases hst₁
      exact hc.of_eq rfl rfl
  | setAddress p addr => exact memoryRegionSetAddress_consistent hc h
  | listenerRegister n priority filter has => exact (memoryListenerRegister_consistent hc h).1
  | listenerUnregister n => exact memoryListenerUnregister_consistent hc h
  | globalDirtyLogStart =>
    cases h
    exact hc.call_global .logGlobalStart (by simp) true
  | globalDirtyLogStop =>
    cases h
    exact hc.call_global .logGlobalStop (by simp) false
  | addressSpaceInit as root => exact addressSpaceInit_consistent hc h
  | addressSpaceDestroy as => exact addressSpaceDestroy_consistent hc hok h

end

end Calls

/-! ## Runs -/

theorem mem_listened {s} : ∀ {spaces : List AddressSpace},
    s ∈ l.listened spaces → ∃ as ∈ spaces, as.ptr = s.addressSpace
  | [], h => by
    cases h
  | as :: spaces, h => by
    rw [listened_cons, mem_add] at h
    rcases h with h | h
    · split at h
      · obtain ⟨fr, -, rfl⟩ := mem_map.1 (mem_coe.1 h)
        exact ⟨as, mem_cons_self, rfl⟩
      · cases h
    · obtain ⟨as', has', hptr⟩ := mem_listened h
      exact ⟨as', mem_cons_of_mem as has', hptr⟩

theorem addressSpace_of_mem_sections {as : AddressSpace} {s : MemoryRegionSection}
    (h : s ∈ as.sections) : s.addressSpace = as.ptr := by
  obtain ⟨fr, -, rfl⟩ := mem_map.1 (mem_coe.1 h)
  rfl

/-- The sections of one address space among those that are listened to. -/
theorem filter_listened (l : MemoryListener) : ∀ (spaces : List AddressSpace),
    (spaces.map ptr).Nodup → ∀ as ∈ spaces, l.accepts as.ptr →
      (l.listened spaces).filter (fun s => s.addressSpace = as.ptr) = as.sections
  | s :: spaces, hnodup, as, has, hacc => by
    obtain ⟨hnew, hrest⟩ := nodup_cons.1 hnodup
    rw [listened_cons, filter_add]
    rcases mem_cons.1 has with rfl | has'
    · have hnone : (l.listened spaces).filter (fun s => s.addressSpace = as.ptr) = 0 := by
        refine filter_eq_nil.2 fun s hs heq => hnew ?_
        obtain ⟨as', has', hptr⟩ := mem_listened hs
        exact mem_map.2 ⟨as', has', hptr.trans heq⟩
      rw [if_pos hacc, hnone, add_zero]
      exact filter_eq_self.2 fun s hs => addressSpace_of_mem_sections hs
    · have hne : s.ptr ≠ as.ptr := fun heq => hnew (heq ▸ mem_map.2 ⟨as, has', rfl⟩)
      have hnone : (if l.accepts s.ptr then s.sections else 0).filter
          (fun s => s.addressSpace = as.ptr) = 0 := by
        refine filter_eq_nil.2 fun t ht heq => hne ?_
        split at ht
        · rw [← addressSpace_of_mem_sections ht, heq]
        · cases ht
      rw [hnone, zero_add]
      exact filter_listened l spaces hrest as has' hacc

/-- One update of an address space : every listener is sent the deletions before anything
else. -/
def DelsFirst (stack : ℕ) : Prop :=
  ∀ (mem : Memory) (as as' : AddressSpace) (ls ls' : List MemoryListener),
    addressSpaceUpdateTopology stack mem as ls = some (as', ls') →
    ∃ dels rest : List ListenerCall, (∀ c ∈ dels, c.callback = .regionDel) ∧
      (∀ c ∈ rest, c.callback ≠ .regionDel) ∧
      ls' = ls.map fun l => l.receive as.ptr (dels ++ rest)

/-- In a run that destroys address spaces with empty flat views only, a listener holds the
current flat view of every address space that it listens to, and nothing else; it is told to
delete only what it holds, and in an update before it is told to add. -/
theorem listeners_consistent (hmem : ∀ p, (mem p).parent = none ∧ (mem p).subregions = [])
    {st : MemoryState} (hrun : Reach (memoryStep stack) Drained (MemoryState.init mem hmem) st) :
    (∀ l ∈ st.listeners, l.has .regionAdd → l.has .regionDel →
      (∀ as ∈ st.spaces, l.accepts as.ptr →
        (holds 0 l.log).filter (fun s => s.addressSpace = as.ptr) =
          ↑(as.currentMap.map (rangeSection as.ptr))) ∧
      (∀ s ∈ holds 0 l.log, ∃ as ∈ st.spaces, as.ptr = s.addressSpace) ∧ DelsHeld 0 l.log) ∧
    DelsFirst stack := by
  have hinit : Consistent (MemoryState.init mem hmem) := ⟨nodup_nil, nofun, nofun⟩
  have hc := hrun.invariant hinit fun s i s' hs hok hstep => memoryStep_consistent hs hok hstep
  refine ⟨fun l hl hadd hdel => ?_, fun mem as as' ls ls' h => ?_⟩
  · have hheld := hc.holds_eq l hl ⟨hadd, hdel⟩
    rw [hheld]
    exact ⟨filter_listened l st.spaces hc.nodup, fun s hs => mem_listened hs,
      hc.delsHeld l hl ⟨hadd, hdel⟩⟩
  · obtain ⟨-, -, dels, rest, hdels, hrest, hls', -⟩ := addressSpaceUpdateTopology_eq h
    exact ⟨dels, rest, hdels, hrest, hls'⟩

/-- A device on a bus, an address space for the bus, a listener, and a change of the device. -/
def listenerOps : List MemoryOp :=
  [.addSubregion 0 0x1000 1, .addressSpaceInit 0 0, .listenerRegister 0 0 none fun _ => true,
    .setReadonly 1 true]

/-- After these calls the listener holds the sections of the space. -/
theorem listeners_consistent_listenerOps : ∃ st,
    listenerOps.foldlM (fun st op => memoryStep 3 op st)
      (MemoryState.init deviceMemory deviceMemory_unlinked) = some st ∧ st.spaces.length = 1 ∧
    ∀ l ∈ st.listeners, l.has .regionAdd → l.has .regionDel → ∀ as ∈ st.spaces, l.accepts as.ptr →
      (holds 0 l.log).filter (fun s => s.addressSpace = as.ptr) =
        ↑(as.currentMap.map (rangeSection as.ptr)) := by
  have hsome : (listenerOps.foldlM (fun st op => memoryStep 3 op st)
      (MemoryState.init deviceMemory deviceMemory_unlinked)).any
      (fun st => st.spaces.length == 1) = true := by
    decide +kernel
  obtain ⟨hget, hlen⟩ := (any_eq_true_iff_get _ _).1 hsome
  have hrun := (some_get hget).symm
  refine ⟨_, hrun, eq_of_beq hlen, fun l hl hadd hdel => ?_⟩
  refine ((listeners_consistent deviceMemory_unlinked (Reach.foldlM listenerOps
    (fun op hop st => ?_) .refl hrun)).1 l hl hadd hdel).1
  simp only [listenerOps, List.mem_cons, List.not_mem_nil, or_false] at hop
  rcases hop with rfl | rfl | rfl | rfl <;> exact trivial

/-- A listener is told about a device, and not that its address space is destroyed. -/
theorem listeners_inconsistent_destroy : ∃ st,
    [MemoryOp.addressSpaceInit 0 1, .listenerRegister 0 0 none fun _ => true,
        .addressSpaceDestroy 0].foldlM (fun st op => memoryStep 3 op st)
      (MemoryState.init deviceMemory deviceMemory_unlinked) = some st ∧ st.depth = 0 ∧
    st.spaces.length = 0 ∧ ∃ l ∈ st.listeners, l.has .regionAdd = true ∧ l.has .regionDel = true ∧
      (holds 0 l.log).card = 1 := by
  have hsome : ([MemoryOp.addressSpaceInit 0 1, .listenerRegister 0 0 none fun _ => true,
      .addressSpaceDestroy 0].foldlM (fun st op => memoryStep 3 op st)
      (MemoryState.init deviceMemory deviceMemory_unlinked)).any (fun st =>
        st.depth == 0 && (st.spaces.length == 0 && st.listeners.any fun l =>
          l.has .regionAdd && (l.has .regionDel && (holds 0 l.log).card == 1))) = true := by
    decide +kernel
  obtain ⟨hget, hst⟩ := (any_eq_true_iff_get _ _).1 hsome
  simp only [Bool.and_eq_true, beq_iff_eq, List.any_eq_true] at hst
  exact ⟨_, (some_get hget).symm, hst⟩

end QemuArm
