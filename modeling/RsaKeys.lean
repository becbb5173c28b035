import RsaKeys.Outcome
import RsaKeys.Bignum.Natural
import RsaKeys.Bignum.BoxedUint
import RsaKeys.Convert
import RsaKeys.Algebra
import RsaKeys.Key.Public
import RsaKeys.Key.Private
import RsaKeys.Key.Cache
import RsaKeys.Key.Validate
import RsaKeys.Key.Construct
import RsaKeys.Key.Correctness
import RsaKeys.Pss.Signature
import RsaKeys.Generate.Multiprime
import RsaKeys.Generate.Lengths
import RsaKeys.Generate.NewKey
