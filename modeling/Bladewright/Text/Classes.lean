/-!
Character classes of the Unicode standard: printable characters, the characters an identifier may start with or go on
with, and blanks. A class is stored as alternating gaps and runs of code points.
-/
namespace Bladewright.Text

def runDigits : List Char :=
  "ABCDEFGHIJKLMNOPQRSTUVWXYZabcdefghijklmnopqrstuvwxyz0123456789!$%&*+,.;<>?[]^_|~".toList

/-- Reads numbers that are written in eighty digits. The first seventy digits end a number and count up to seventy; the
last ten are decimal digits of how often seventy goes into it. -/
def readRuns (text : String) : List Nat :=
  let read := fun (part : Nat × List Nat) (c : Char) =>
    let digit := runDigits.idxOf c
    if digit < 70 then (0, (part.1 * 70 + digit) :: part.2) else (part.1 * 10 + digit - 70, part.2)
  ((text.toList.filter (· != '\n')).foldl read (0, [])).2.reverse

def identifierStartRuns : List Nat := readRuns
  "&aEBBavBKBEBFXBfB^mEMOFHBBB<7FBCDDBBGBBDBBBUB<NB<.I>aBmCBGp<BbEEtrjCB<dBBPCHCKDCBQBBed<TLBYhJCEBFWEBJBDBXZHLFYBGRq62D
BSBHKPQEICCCWBHBBDEDBQBNCBDOCKBIGECCWBHBCBCBCfEBBTDQJBDBWBHBCBFDBSBPCXBLICCCWBHBCBFDBeCBDPBRBBGDDBEDCBBBCDCDDDMWB0IBD
BXBQDBaDCBCCeBEIBDBXBKBFDBfCBCPCRJBDBpCBQBFDIDYGFSDYBJBBCH6wBBNH6CBBBFBYBBBKBBKBCFBBVEgB$IBkbF<trUBQGEEDBDCHDENMBRmBB
FBCrB[1BECHBBBECpBEChBECHBBBECPB5BEC+lQQ<QCGD|8CRBaF<FDLHSNTOSONBDP0jBEB+<THpBBF<AKfxeCFLsEa2XJ1<MB<XvRI2eNCKsakpDKkC
JHrCDpEBGBCDBF>0%?,CGCmCGCIBBBBBBBfC1BHBBDDBHDECGENFDBH<uBNBQN<fBEBCKBBCGGBBBBBBQCEFFEBRp?|T?TGEDCMmBBFBC4HBQXJHBHBHB
HBHBHBHBH_8DZJHFCFE<QGDB<UBEFrB<YRgwQ_W~[M%?<^l+uC?7DQKCUvQfC<KnJC<hC%FCBBBFYQBDBEBXd0Oy!GDBBCLcKXZdHvcBQFBKKFBpXDBIU
XDBDyBBDCCFCBBBYDCLHDMGCGCGJHBHBrBOG<td<]~qMXEx<>;0]QC<kmHMFFBBKBNBFBBBCBCB<mh<.G?IS%C2oK<xBBBDBBBBBBBB<4kaGaL4CfDGCG
CGCDjMBaBTBCBPCOi<1.1?5dDxvgNeFmKeCkEIBFq>SSkEkEoI0MLBPBHBCBLBPBHBC+[fJWKIYGBqBJ.GCBBsBCDBCXKXJf&TBCKWKa<A4GC%BPEBDBd
qdDdjIBcb2KWKTNS<o<D3zNzNk[,qGC<IdKBIWqSuVbXM15CCBNtgZakdBCBIjDBMwOEVBBBjSBZ<OHBBBEBPBKHvmICCCWBHBCBFDBSBMF>S1SEUDewU
CBB>svpEkwUB7rNB<BblH>ts<u%fICBCIBCBYPBBB<YICnQBBBcBKoHBVBLuTBS<D?1JBlRBxe<qHBCBmVBZGBCBgOB[vT>xB<J<?M<g<pR>4?_u<bP<]
V]_7|X<>?X|JHfR<JReSwQEfVFT~6%<6<FFB*N%CBBc|_uI<_wqJ<>_tEBHBCB[LtDREI]u?>,<lFNDJHK|]o<PB<BBCCBCCCEBMBBBHB&BECIBHBcBEB
FBBDHB[8CZBZBfBZBfBZBfBZBfBZBI>^Yf^9tKHQB[peSs<|IHBEBCBPB>57,HB<_OEBbBCBBCBBKBEBBBBGBEBBBBBBDBCBBCBBBBBBBBBBCBBCEBHBE
BEBBBKBRFDBFBR^?K^<;Ug]~XH?MC|>WO<;^1[[X_0><k_;n"

/-- What an identifier may go on with, but not start with. -/
def markRuns : List Nat := readRuns
  "wK<3B|Y<qXB?pF?3tBBBCBCBB<CLwfGB<fHCGCCBECKXBeb<VLPKhJJBYEBJBDBFrD8IqYBh2DBSBHKCCKRD4BBHCCCDJBKCCKOBCD4BBFECCDDBUMD
BLD4BBIBDBDUCCKKGBD4BBHCCCDHDKCCKSB7FDDBEJBOKQF3BBHBDBEHCLCCKRD4BBHBDBEHCLCCKQE3CBHBDBEJBKCCKRD<ABEGBBBIGKCC9BBIMIBK<R
BBKLGCK!CGKLBBBBBECxUBCFLBkJB<eUBKMEEDBDCHDENMBP<;DDJJ<?SEcDdCeC%gJBCKhDBL>DB<wMEMKK<6L8F5KBdCLGKWOBQxFvRLKRJMDeNCKsOw
UIKGK<wDBVEBGBCD>6%|PCTB<1NEBDM[?8D>BB<ag_%G<jC[>~3K.BEKgC<KC?!BDBEBXFEB<NCySKKGSNLcIZNsEvOPKLBKKvOMBICCKhDyBBDCCFCBBp
FFC?aIBCCK>|~eB<;lQQQDCYD>0KlB<YC|tB?QB>JF[NK<~lDBCFEoDEB>ZC|NEIK]TC>NLxE<0D1PfLCCKEtLHBtKGDkOBKFCsBMDwOIEBM<MMGB>UMFK
GE3CBHCCCDJBKCCHDF>0SJKEB<LUMK?DHCJbC<MRPK<LNIK<NPEK?gP>ZK<AGBCCEBBBCMK<xHCHDBcKoHBEIBJLuQ]3IBIQK4WBO<0GDBBCBHBBIKwFBC
BFIK[xE>_]3K<QKmF7HZK<[hBB3HE<LBLC>|;bC^_PuCX_0FDGIICHeE>ID>;Ry_W3EyIBOBWFBP<~eHBRCHBCBF?zHJK]GB9O><YH<nHFK^_,K<<>]?I?
e"

/-- What can be printed, but is in no identifier. -/
def symbolRuns : List Nat := readRuns
  "gQKHaEBBaEiJBCBHBBBCBFXBfB^mEMOFHBBBR<vBEBDBFC<qB<.BFC>,GpCCDuBBBCBCBsCRKLBBD<EE<gBJBKBTCBO?WEECwPfBpB?JCKB<7KBB<yB
<zC<4BBG<yL<2JEB>!BIHRK<0B<EBPBKC>ZXCGKLBBBBBE<BB4IBGBN<pG<IC<VB|0JJLTK<gB|8CsC<ID<BC>RDBEUKGL[dBDC>MieC<6HBGQB>PRJL<3
E7F!C%ILB<;tBBDLDNDNDNCRYIPCTBKRBDLBPRhcEBDbCBEBCKBBCGGBBBBBBQCEFFEBRpDE~hZLV>]!CgB<j?TGOH<qB>D<YiaB<TM?EaMFEDZPBFCFD<
VCDB<UB>IQgkcfB^8~[M%?<^o33C?7D<aEKB<tGIXJC<hC>REEK6E<QCoDBBxCvB<bNQC<2EXD<eCQC<jBOC<5B>|~3B<*R>PG?IS<5BqGQKWDCYDDBTBE
EBBBBBBBBBBBBBBB<8PKHaEBBaL<0HBHNC?wDEtDJ1aBNDBvt?SbkE<1BwB]%B<;rJXJnJ<FFWGDBfB<2CCQCu%JHJkDdDoBiM*HYIYIZEMH[yG]CfuB<p
KqJsE7H<1HEU<PCBE<4EwC<JEEBNBBDBU+G<lB]+FKCBB<iB?oX<jDcN<GB<6G?pB>iJ<LD>PB<WI<NDBF]%FUTDC~PC>7yNB<^QF[>AC><?9C<$B&JECV
H<<cb[vB>|;pBCB^|Y<u8?kKnC8FDWCHeE9V*DB>OUM<RJZ<>ABZBfBZBfBZBfBZBfBZB8_W3EyIBOBH>[zB^LB><JJ>CC<<P,<G9^OC?8sE<eMPCPBPBl
K>i4dNsEJHCOG>O<[EFQDND<uM<THMEBPME4IKGoIeCC<I[8MOCFDFDHJdDLFGKKGIIHJ>HB3"

/-- Whether a code point lies in one of the runs of an alternating list of gaps and runs. -/
def inRuns : List Nat → Nat → Bool
  | gap :: run :: rest, code =>
    if code < gap then false
    else if code < gap + run then true
    else inRuns rest (code - gap - run)
  | _, _ => false

def isPrintable (c : Char) : Bool :=
  if c.toNat < 127 then decide (32 ≤ c.toNat)
  else inRuns identifierStartRuns c.toNat || inRuns markRuns c.toNat || inRuns symbolRuns c.toNat

def isIdentifierStart (c : Char) : Bool :=
  if c.toNat < 128 then c.isAlpha || c == '_' else inRuns identifierStartRuns c.toNat

def isIdentifierPart (c : Char) : Bool :=
  if c.toNat < 128 then c.isAlphanum || c == '_'
  else inRuns identifierStartRuns c.toNat || inRuns markRuns c.toNat

def isIdentifier (s : String) : Bool :=
  match s.toList with
  | [] => false
  | c :: rest => isIdentifierStart c && rest.all isIdentifierPart

/-- Blanks: the separators of the standard and the control characters that divide lines and fields. -/
def isBlank (c : Char) : Bool :=
  let code := c.toNat
  (9 ≤ code && code ≤ 13) || (28 ≤ code && code ≤ 32) || code == 0x85 || code == 0xa0
    || code == 0x1680 || (0x2000 ≤ code && code ≤ 0x200a) || code == 0x2028 || code == 0x2029
    || code == 0x202f || code == 0x205f || code == 0x3000

def isPlainBlank (c : Char) : Bool := c == ' ' || (9 ≤ c.toNat && c.toNat ≤ 13)

end Bladewright.Text
