import ByDoing.Distributed.HashConsistence

namespace HashConsistence

section Collisions

variable {getHash : Str → SizeT} {names : List Str}

theorem of_mem_putAll {m : HashMap} {e : SizeT × Str} (h : e ∈ (putAll getHash names m).entries)
    : e ∈ m.entries ∨ ∃ name ∈ names, e = (getHash name, name) := by
  induction names generalizing m with
  | nil => exact .inl h
  | cons name names ih =>
    cases ih h with
    | inl hmem =>
      rw [OrderedMap.mem_insert] at hmem
      cases hmem with
      | inl heq => exact .inr ⟨name, List.mem_cons_self, heq⟩
      | inr hmem => exact .inl hmem.right
    | inr hmem =>
      obtain ⟨name', hname', heq⟩ := hmem
      exact .inr ⟨name', List.mem_cons_of_mem name hname', heq⟩

theorem mem_keys_insert {m : HashMap} {k k' : SizeT} {v : Str} (h : k = k' ∨ k ∈ m.keys) : k ∈ (m.insert k' v).keys := by
  by_cases heq : k = k'
  . subst heq
    exact ⟨v, OrderedMap.mem_insert.mpr (.inl rfl)⟩
  . obtain ⟨v', hmem⟩ := h.resolve_left heq
    exact ⟨v', OrderedMap.mem_insert.mpr (.inr ⟨heq, hmem⟩)⟩

theorem mem_keys_putAll {m : HashMap} {k : SizeT} (h : k ∈ m.keys ∨ ∃ name ∈ names, getHash name = k)
    : k ∈ (putAll getHash names m).keys := by
  induction names generalizing m with
  | nil =>
    apply h.resolve_right
    rintro ⟨_, hname, _⟩
    cases hname
  | cons name names ih =>
    apply ih
    rcases h with hmem | ⟨name', hname', heq⟩
    . exact .inl (mem_keys_insert (.inr hmem))
    . rw [List.mem_cons] at hname'
      cases hname' with
      | inl hsame =>
        subst hsame
        exact .inl (mem_keys_insert (.inl heq.symm))
      | inr hrest => exact .inr ⟨name', hrest, heq⟩

theorem of_mem_ring {e : SizeT × Str} (h : e ∈ (ring getHash names).entries)
    : ∃ name ∈ names, e = (getHash name, name) := by
  apply (of_mem_putAll h).resolve_left
  intro hmem
  cases hmem

theorem findNode_mem (hne : names ≠ []) (key : Str)
    : ∃ name ∈ names, findNode getHash (ring getHash names) key = some name := by
  rw [findNode_eq_next]
  cases hnext : (ring getHash names).next (getHash key) with
  | none =>
    obtain ⟨name, hname⟩ := List.exists_mem_of_ne_nil names hne
    obtain ⟨v, hv⟩ := @mem_keys_putAll getHash names .empty _ (.inr ⟨name, hname, rfl⟩)
    rw [OrderedMap.next_eq_none_iff] at hnext
    rw [ring] at hnext
    rw [hnext] at hv
    cases hv
  | some e =>
    obtain ⟨name, hname, heq⟩ := of_mem_ring (OrderedMap.isNext_of_next hnext).left
    exact ⟨name, hname, by rw [heq]; rfl⟩

end Collisions

namespace VirtualNode

theorem serverName_cons (c : UInt8) (name : Str)
    : serverName (c :: name) = if c = 38 then [] else c :: serverName name := by
  unfold serverName
  by_cases hc : c = 38
  . have hstart : [38] <+: c :: name := ⟨name, by rw [hc]; rfl⟩
    rw [Search.find_of_starts hstart, if_pos hc]
    rfl
  . have hstart : ¬[38] <+: c :: name := by
      rintro ⟨rest, hrest⟩
      injection hrest with hhead
      exact hc hhead.symm
    rw [Search.find_cons_of_not_starts hstart, if_neg hc]
    cases Search.find [38] name <;> rfl

theorem serverName_virtualNodeName (server : Str) (j : Nat)
    : serverName (virtualNodeName server j) = serverName server := by
  unfold virtualNodeName
  induction server with
  | nil => rfl
  | cons c server ih =>
    rw [List.cons_append, List.cons_append, serverName_cons, serverName_cons, ih]

theorem getServer_eq_serverName (getHash : Str → SizeT) {servers : List Str} (hne : servers ≠ []) (key : Str)
    : ∃ server ∈ servers, getServer getHash servers key = some (serverName server) := by
  obtain ⟨name, hname, hfind⟩ := @findNode_mem getHash _ (flatMap_ne_nil hne) key
  obtain ⟨server, hserver, hname⟩ := List.mem_flatMap.mp hname
  obtain ⟨j, _, rfl⟩ := List.mem_map.mp hname
  refine ⟨server, hserver, ?_⟩
  rw [getServer_eq, hfind, Option.map_some, serverName_virtualNodeName]

theorem virtualNodeName_zero_ne_one (server : Str) : virtualNodeName server 0 ≠ virtualNodeName server 1 := by
  intro hsame
  have hlast := List.append_cancel_left hsame
  exact absurd hlast (by decide)

def low : SizeT := ⟨0, by decide⟩

def high : SizeT := ⟨1, by decide⟩

theorem low_lt_high : low < high := by
  decide

def colliding (node s : Str) : SizeT :=
  if s = node then high else low

theorem colliding_self (node : Str) : colliding node node = high :=
  if_pos rfl

theorem colliding_of_ne {node s : Str} (h : s ≠ node) : colliding node s = low :=
  if_neg h

theorem eq_of_low_lt_colliding {node s : Str} (h : low < colliding node s) : s = node := by
  by_contra hne
  rw [colliding_of_ne hne] at h
  exact lt_irrefl low h

theorem findNode_colliding {names : List Str} {node key : Str} (hnode : node ∈ names) (hkey : key ≠ node)
    : findNode (colliding node) (ring (colliding node) names) key = some node := by
  have hvalue : ∀ v, (high, v) ∈ (ring (colliding node) names).entries → v = node := by
    intro v hv
    obtain ⟨name, _, heq⟩ := of_mem_ring hv
    rw [Prod.mk.injEq] at heq
    obtain ⟨hhash, rfl⟩ := heq
    apply eq_of_low_lt_colliding
    rw [← hhash]
    exact low_lt_high
  have hmem : (high, node) ∈ (ring (colliding node) names).entries := by
    obtain ⟨v, hv⟩ := @mem_keys_putAll (colliding node) names .empty _ (.inr ⟨node, hnode, rfl⟩)
    rw [colliding_self] at hv
    rwa [hvalue v hv] at hv
  have hnext : IsNext (ring (colliding node) names).keys low high := by
    refine ⟨⟨node, hmem⟩, .inl ⟨low_lt_high, ?_⟩⟩
    rintro m ⟨v, hv⟩ hlt
    obtain ⟨name, _, heq⟩ := of_mem_ring hv
    rw [Prod.mk.injEq] at heq
    obtain ⟨rfl, rfl⟩ := heq
    rw [eq_of_low_lt_colliding hlt, colliding_self]
  rw [findNode_eq_next, colliding_of_ne hkey, (OrderedMap.next_eq_some_iff hvalue).mpr ⟨hmem, hnext⟩]
  rfl

/--
This theorem says for which servers every key reaches one of them, whatever hashes collide: the part of each
name before its first `&` must be the name of a server as well.
-/
theorem getServer_mem_iff {servers : List Str} (hne : servers ≠ []) (key : Str)
    : (∀ getHash, ∃ server ∈ servers, getServer getHash servers key = some server)
        ↔
      ∀ server ∈ servers, serverName server ∈ servers := by
  constructor
  . intro hall server hserver
    -- One of two nodes of the server is not the key, and a hash can keep just that one apart.
    have hnode : ∃ j < VIRTUAL_NODE_NUM, key ≠ virtualNodeName server j := by
      by_cases hzero : key = virtualNodeName server 0
      . refine ⟨1, by decide, ?_⟩
        rw [hzero]
        exact virtualNodeName_zero_ne_one server
      . exact ⟨0, by decide, hzero⟩
    obtain ⟨j, hj, hkey⟩ := hnode
    have hmem : virtualNodeName server j ∈ servers.flatMap virtualNodes := by
      apply List.mem_flatMap.mpr
      exact ⟨server, hserver, List.mem_map.mpr ⟨j, List.mem_range.mpr hj, rfl⟩⟩
    obtain ⟨server', hserver', hget⟩ := hall (colliding (virtualNodeName server j))
    rw [getServer_eq, findNode_colliding hmem hkey, Option.map_some, serverName_virtualNodeName,
      Option.some.injEq] at hget
    rwa [hget]
  . intro hall getHash
    obtain ⟨server, hserver, hget⟩ := getServer_eq_serverName getHash hne key
    exact ⟨serverName server, hall server hserver, hget⟩

-- `"a"` and `"b"`
theorem getServer_mem_of_ab
    : (∀ getHash, ∃ server ∈ [[97], [98]], getServer getHash [[97], [98]] [99] = some server)
        ↔
      ∀ server ∈ [[97], [98]], serverName server ∈ ([[97], [98]] : List Str) :=
  getServer_mem_iff (List.cons_ne_nil _ _) [99]

-- `"a&b"` is cut to `"a"` under every hash, also if it is the only server.
theorem getServer_not_mem
    : ¬∀ (getHash : Str → SizeT) (servers : List Str) (key : Str), servers ≠ [] →
      ∃ server ∈ servers, getServer getHash servers key = some server := by
  intro hall
  obtain ⟨server, hserver, hget⟩ := hall (fun _ => low) [[97, 38, 98]] [99] (List.cons_ne_nil _ _)
  rw [List.mem_singleton] at hserver
  subst hserver
  revert hget
  decide

end VirtualNode

end HashConsistence
