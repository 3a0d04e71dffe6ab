import Broker.Base.Readable
import Broker.Net.Packet

/-!
# Printed addresses

An address is printed as its four numbers with points between them, and its port behind a colon.
The text tells both.
-/

namespace Broker.Net
open Broker.Base

/-- An address is printed as four numbers with points between them. -/
theorem inetNtoa_eq (a b c d : UInt8) : inetNtoa [a, b, c, d] = decimal a.toNat ++
    point :: (decimal b.toNat ++ point :: (decimal c.toNat ++ point :: decimal d.toNat)) := by
  simp [inetNtoa, List.intercalate, List.intersperse, ascii, point]

/-- An address and a port are told by their text in front of a character that is no digit. -/
theorem eq_of_address {a b : SockaddrIn} {x y : UInt8} {rest rest' : Bytes}
    (hx : isDigit x = false) (hy : isDigit y = false)
    (he : inetNtoa a.sAddr ++ ascii [':'] ++ decimal (ntoh a.sinPort) ++ x :: rest =
      inetNtoa b.sAddr ++ ascii [':'] ++ decimal (ntoh b.sinPort) ++ y :: rest') :
    a = b ∧ x :: rest = y :: rest' := by
  obtain ⟨sAddr, sinPort, hs, hp⟩ := a
  obtain ⟨sAddr', sinPort', hs', hp'⟩ := b
  obtain ⟨a₁, a₂, a₃, a₄, rfl⟩ := List.length_eq_four.mp hs
  obtain ⟨b₁, b₂, b₃, b₄, rfl⟩ := List.length_eq_four.mp hs'
  have hcolon : ascii [':'] = [58] := by decide
  have hp58 : isDigit 58 = false := by decide
  simp only [inetNtoa_eq, hcolon, List.append_assoc, List.cons_append, List.nil_append] at he
  -- The four numbers of the address and the port, one after the other.
  obtain ⟨h₁, he₁⟩ := eq_of_decimal_append isDigit_point isDigit_point he
  obtain ⟨h₂, he₂⟩ := eq_of_decimal_append isDigit_point isDigit_point (List.cons.inj he₁).2
  obtain ⟨h₃, he₃⟩ := eq_of_decimal_append isDigit_point isDigit_point (List.cons.inj he₂).2
  obtain ⟨h₄, he₄⟩ := eq_of_decimal_append hp58 hp58 (List.cons.inj he₃).2
  obtain ⟨h₅, hlast⟩ := eq_of_decimal_append hx hy (List.cons.inj he₄).2
  obtain rfl := UInt8.toNat_inj.mp h₁
  obtain rfl := UInt8.toNat_inj.mp h₂
  obtain rfl := UInt8.toNat_inj.mp h₃
  obtain rfl := UInt8.toNat_inj.mp h₄
  obtain rfl := eq_of_ntoh (hp.trans hp'.symm) h₅
  exact ⟨rfl, hlast⟩

end Broker.Net
